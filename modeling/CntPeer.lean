import CntPeer.Foundation.Transition
import CntPeer.Foundation.ByteFile
import CntPeer.Foundation.SortedVec
import CntPeer.Foundation.Eviction
import CntPeer.PieceRepository.Accounting
import CntPeer.PieceRepository.PlainFile
import CntPeer.Msg.Transport
import CntPeer.Process.Ownership
import CntPeer.Process.Lifecycle
import CntPeer.Process.Phase
import CntPeer.Process.TearDown
import CntPeer.Process.Choke
import CntPeer.Process.RequestChain
import CntPeer.Process.Slots
import CntPeer.Process.Tokens
import CntPeer.Process.Integrity
import CntPeer.Process.Panics
import CntPeer.Process.CleanUp
import CntPeer.Process.Statuses
import CntPeer.Process.Acceptance
import CntPeer.Process.Interest
import CntPeer.Process.Eligible
import CntPeer.Process.Promotion
import CntPeer.Process.EndOfRun
import CntPeer.Process.PnSet
import CntPeer.Process.Deadlock
import CntPeer.BlockingQueue
import CntPeer.Session.Preferred
import CntPeer.Io.PlainStream
import CntPeer.Msg.Lengths
import CntPeer.Msg.BufferBound
import CntPeer.Main.CacheLimit
import CntPeer.Main.Mesh
import CntPeer.Swarm.Conservation
import CntPeer.Swarm.Stream
import CntPeer.Swarm.TearDown
import CntPeer.Swarm.DownloadLog
import CntPeer.Swarm.Workload
import CntPeer.PieceRepository.Linear
import CntPeer.Swarm.Deployment
import CntPeer.Swarm.Provenance
import CntPeer.Swarm.Bytes
