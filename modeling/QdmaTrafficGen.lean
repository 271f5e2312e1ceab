import QdmaTrafficGen.Backoff
import QdmaTrafficGen.PacketRate
import QdmaTrafficGen.CacheKeys
import QdmaTrafficGen.Completions
import QdmaTrafficGen.Provenance
import QdmaTrafficGen.Release
import QdmaTrafficGen.MempoolLimits
import QdmaTrafficGen.Lifecycle
import QdmaTrafficGen.TxResources
import QdmaTrafficGen.Resets
import QdmaTrafficGen.RxPackets
import QdmaTrafficGen.SendWindow
import QdmaTrafficGen.TcbUpdates
import QdmaTrafficGen.TimerWheel
import QdmaTrafficGen.Handshake
import QdmaTrafficGen.HeaderPipeline
import QdmaTrafficGen.SynSequence
import QdmaTrafficGen.Coincidence
import QdmaTrafficGen.FlowFairness
import QdmaTrafficGen.FlowPackets
import QdmaTrafficGen.Checksums
import QdmaTrafficGen.SynAnswer
import QdmaTrafficGen.Egress
import QdmaTrafficGen.Credits
import QdmaTrafficGen.Steering
import QdmaTrafficGen.LcoreQueues
import QdmaTrafficGen.RssHash
import QdmaTrafficGen.ActiveQueues
import QdmaTrafficGen.H2cDelivery
import QdmaTrafficGen.C2hDelivery
import QdmaTrafficGen.NetSendDelivery
import QdmaTrafficGen.LinkCrc
