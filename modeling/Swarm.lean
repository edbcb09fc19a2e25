import Swarm.Pot.Key
import Swarm.Pot.Basic
import Swarm.Pot.Invariant
import Swarm.Pot.Add
import Swarm.Pot.Swap
import Swarm.Pot.Remove
import Swarm.Pot.Each
import Swarm.Pot.Bins
import Swarm.Pot.Coverage
import Swarm.Pot.Union
import Swarm.Pot.Turns
import Swarm.Pot.Gap
import Swarm.Pot.Async
import Swarm.Pot.Store
import Swarm.Network.Address
import Swarm.Network.Table
import Swarm.Network.Ops
import Swarm.Network.Flags
import Swarm.Network.Suggest
import Swarm.Network.Coherence
import Swarm.Network.Known
import Swarm.Network.Depth
import Swarm.Network.Search
import Swarm.Network.Saturation
import Swarm.Network.Signal
import Swarm.Network.Closest
import Swarm.Network.Info
import Swarm.Network.Hive
import Swarm.Network.Health
import Swarm.Network.PeerPotMap
import Swarm.Network.Walks
import Swarm.Network.GapSearch
import Swarm.Pss.Registry
import Swarm.Pss.Handle
import Swarm.Pss.Forward
import Swarm.Pss.Json
import Swarm.Pss.Node
import Swarm.Tracing.Spans
