import WBFreeRDP.Asn1Decoder
import WBFreeRDP.Asn1Tree
import WBFreeRDP.Base64
import WBFreeRDP.Ber
import WBFreeRDP.CacheOrders
import WBFreeRDP.ClearSequence
import WBFreeRDP.Collections
import WBFreeRDP.FastPath
import WBFreeRDP.HashTable
import WBFreeRDP.ImageCopy
import WBFreeRDP.LineEndings
import WBFreeRDP.MessageQueue
import WBFreeRDP.MppcSafety
import WBFreeRDP.NcrushCopies
import WBFreeRDP.NcrushFetch
import WBFreeRDP.NcrushSearch
import WBFreeRDP.Nsc
import WBFreeRDP.Per
import WBFreeRDP.PlanarScan
import WBFreeRDP.PrimaryOrderRuns
import WBFreeRDP.ProgressiveTiles
import WBFreeRDP.Region16Sets
import WBFreeRDP.RfxDecode
import WBFreeRDP.RingBuffer
import WBFreeRDP.RlgrSafety
import WBFreeRDP.ServerChannels
import WBFreeRDP.ServerFailures
import WBFreeRDP.ServerHandshake
import WBFreeRDP.ServerInput
import WBFreeRDP.ServerLicensing
import WBFreeRDP.TransportBound
import WBFreeRDP.WebSocketWriter
import WBFreeRDP.XcrushLossless
import WBFreeRDP.YCbCr
import WBFreeRDP.ZgfxFraming
import WBFreeRDP.ZgfxMatches
import WBFreeRDP.FastPathSession
