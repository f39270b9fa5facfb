import Imola.Bytes
import Imola.Incremental
import Imola.Framing
import Imola.Splice
import Imola.CInts
import Imola.Runs
import Imola.BridgeParser
import Imola.BridgeLoop
import Imola.BridgeRequests
import Imola.RmtfsStorage
import Imola.RmtfsShadow
import Imola.RmtfsRequests
import Imola.RmtfsHandles
import Imola.QdlGpt
import Imola.QdlGptPatch
import Imola.Progs
import Imola.Layout
import Imola.QmiTables
import Imola.QmiCodec
import Imola.QmiWire
import Imola.QmiEncodeWire
import Imola.QmiRoundTrip
import Imola.QmiEncodeBounds
import Imola.QmiDecodeBounds
import Imola.CStrings
import Imola.TqftpServer
import Imola.TqftpBlocks
import Imola.TqftpRequests
import Imola.TqftpTransfer
import Imola.Probing
import Imola.QrtrMap
import Imola.QrtrMapRefines
import Imola.QrtrNs
import Imola.QrtrNsIsolation
import Imola.QrtrNsPurge
import Imola.QrtrNsObservers
import Imola.LexicalPaths
import Imola.TqftpTranslate
import Imola.TqftpDescriptors
import Imola.RmtfsMessages
import Imola.RmtfsReplies
import Imola.JsonText
import Imola.PdMapperJson
import Imola.PdMapperScan
import Imola.PdMapperCursor
import Imola.PdMapperText
import Imola.PdMapperDepth
import Imola.BridgeBuffer
import Imola.BridgeStart
import Imola.QrtrNsDatagram
import Imola.Sessions
import Imola.TqftpWriter
import Imola.TqftpClients
import Imola.QmiOrder
import Imola.PdMapperTable
import Imola.PdMapperReply
import Imola.BridgeFraming
import Imola.BridgePins
import Imola.QdlGptInputs
import Imola.QdlUimage
import Imola.Bdaddr
import Imola.RmtfsBackends
import Imola.RmtfsRequired
import Imola.RmtfsSlots
import Imola.RmtfsGrowth
import Imola.RmtfsCallers
import Imola.RmtfsReads
import Imola.RmtfsUses
import Imola.TqftpWindows
import Imola.Marked
import Imola.QmiFields
import Imola.LinkedLists
import Imola.QrtrList
import Imola.QrtrNsLookups
import Imola.QrtrNsReports
import Imola.QrtrPackets
import Imola.QrtrNsSnapshot
import Imola.QrtrIdentity
import Imola.GpioChip
import Imola.BdaddrArgument
import Imola.QrtrListRuns
import Imola.QrtrMapGrowth
import Imola.ProbeTables
import Imola.PdMapperAssoc
import Imola.StateTriples
import Imola.PdMapperInput
import Imola.PdMapperArrays
import Imola.TqftpBuffers
import Imola.Decimals
import Imola.TqftpOack
import Imola.TqftpPackets
import Imola.TqftpReceived
import Imola.QrtrNsAnnounce
import Imola.QrtrPeers
import Imola.RmtfsDisk
import Imola.QrtrNsMain
