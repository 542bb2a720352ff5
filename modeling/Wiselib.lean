import Wiselib.Allocators.BitmapAllocator
import Wiselib.Allocators.FirstFitAllocator
import Wiselib.BlockMemory.CachedBlockMemory
import Wiselib.TupleStore.PrescillaKeyOrder
import Wiselib.Pstl.AvlSingle
import Wiselib.Codecs.HuffmanCodec
import Wiselib.Codecs.VarInt
import Wiselib.SixLowpan.NeighborCacheRuns
import Wiselib.Coap.CoapPacketAtomicity
import Wiselib.Coap.CoapPacketRepeated
import Wiselib.Coap.CoapPacketRoundTrip
import Wiselib.Coap.CoapServiceReferences
import Wiselib.Coap.CoapBlockwise
import Wiselib.Coap.CoapObserveRuns
import Wiselib.Routing.TreeRouting
import Wiselib.Routing.DsdvDistances
import Wiselib.Routing.DsrRoutes
import Wiselib.Routing.DsrFloods
import Wiselib.Routing.AodvFloods
import Wiselib.Routing.AodvLoops
import Wiselib.Routing.Flooding
import Wiselib.Routing.OlsrLinkSets
import Wiselib.Radio.ReliableRadioOnce
import Wiselib.Radio.ReliableRadioIntegrity
import Wiselib.Radio.FragmentingRadioIntegrity
import Wiselib.Broker.ShdtStream
import Wiselib.Crypto.SingleBitVerdicts
import Wiselib.Inqp.JoinOrder
import Wiselib.Inqp.QueryAssembly
import Wiselib.Inqp.Translators
import Wiselib.Radio.PackingRadio
import Wiselib.Broker.FragmentingRadioSenders
import Wiselib.TupleStore.MaskedQueries
import Wiselib.Graphs.AdjacencyListRuns
import Wiselib.BlockMemory.ChunkMapSearch
import Wiselib.SixLowpan.ExtensionHeaderRoundTrip
import Wiselib.SixLowpan.UpperLayerChecksum
import Wiselib.SixLowpan.UdpSend
import Wiselib.Coap.CoapPacketBounds
import Wiselib.Coap.CoapRetransmissions
import Wiselib.Routing.DymoCleanup
import Wiselib.Routing.OlsrRoutingTable
import Wiselib.Crypto.Aes
import Wiselib.Crypto.DigitDivision
import Wiselib.Crypto.EciesFp
import Wiselib.Codecs.FloatingPoint
import Wiselib.Pstl.QueueStatic
import Wiselib.Codecs.FletcherMessage
import Wiselib.Codecs.BitwiseSerialization
import Wiselib.Pstl.PriorityQueueDynamic
import Wiselib.NodeApi.UartPacketExtractor
import Wiselib.Radio.FragmentingJoin
import Wiselib.Routing.DsrRoutingMessage
import Wiselib.Crypto.Sha1Digest
import Wiselib.Crypto.BinaryInversion
import Wiselib.Pstl.VectorStaticRanges
import Wiselib.Pstl.VectorDynamicInsertion
import Wiselib.Pstl.ListStaticRanges
import Wiselib.Pstl.ListStaticUnique
import Wiselib.Pstl.SetStatic
import Wiselib.Pstl.UnbalancedTree
import Wiselib.Pstl.HeapSort
import Wiselib.Pstl.SetAlgorithms
import Wiselib.Pstl.AvlRotation
import Wiselib.BlockMemory.BPlusTreeBlock
