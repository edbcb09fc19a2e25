import Swarm.Pot.Key

/-!
# Addresses of the network package

network/kademlia.go compares overlay addresses with `Pof`, `DefaultPof(256)`: an overlay address
is 32 bytes, and two addresses are as close as the number of leading bits they share.
-/

namespace Swarm.Network

/-- `Pof`, the proximity order of overlay addresses. -/
def pof : Pof := defaultPof 256

end Swarm.Network
