import Swarm.Pot.Bins
import Swarm.Pot.Swap
import Swarm.Network.Address

/-!
# The Kademlia table

The state of network/kademlia.go: peer records (`Entry`) kept in two pots per capability index,
`conns` for live connections and `addrs` for known addresses, and the depths computed from them:
`neighbourhoodRadiusForPot`, `depthForPot`, `expectedMinBinSize` and `saturation`. A nil `*Pot`
is `none`; time is a clock reading in nanoseconds, passed in where the code calls `time.Now()`.
Locks, metrics, logging and the depth-change signals are not modelled.
-/

namespace Swarm.Network

open Pot

/-- `capability.Capability`, an id and a bit set. Modelled from its uses in network/kademlia.go:
the capability package is not under src. -/
structure Capability where
  id : Nat
  cap : List Bool
deriving DecidableEq, Repr

/-- `BzzAddr`: the overlay address `Pof` compares, the underlay address, and the advertised
capabilities. Modelled from its uses in network/kademlia.go: the type is not under src. -/
structure BzzAddr where
  oAddr : Key 256
  uAddr : List UInt8
  capabilities : List Capability
deriving DecidableEq, Repr

/-- `Peer`, a live connection to a `BzzAddr`. Connections are told apart by pointer, which `id`
stands for. Modelled from its uses in network/kademlia.go: the type is not under src. -/
structure Peer where
  id : Nat
  bzzAddr : BzzAddr
deriving DecidableEq, Repr

/-- `entry`: the record of an address, with its connection when the peer is live, when it was
seen, and how often it was dialled. -/
structure Entry where
  bzzAddr : BzzAddr
  conn : Option Peer
  seenAt : Int
  retries : Int
deriving DecidableEq, Repr

/-- An entry is stored under its overlay address, what `ToBytes` reads of its `BzzAddr`. -/
instance : BytesAddress Entry 256 := ⟨fun e => e.bzzAddr.oAddr⟩

@[simp] theorem address_entry (e : Entry) : address e = e.bzzAddr.oAddr := rfl

/-- `newEntryFromBzzAddress`, at clock reading `now`. -/
def newEntryFromBzzAddress (p : BzzAddr) (now : Int) : Entry := ⟨p, none, now, 0⟩

/-- `newEntryFromPeer`, at clock reading `now`. -/
def newEntryFromPeer (p : Peer) (now : Int) : Entry := ⟨p.bzzAddr, some p, now, 0⟩

/-- `capabilityIndex`: the capability (nil for the default index), the pots of live and of known
peers, and the cached depth. -/
structure CapabilityIndex where
  capability : Option Capability
  conns : Option (Pot Entry)
  addrs : Option (Pot Entry)
  depth : Int

/-- `NewDefaultIndex`. -/
def NewDefaultIndex : CapabilityIndex := ⟨none, some empty, some empty, 0⟩

/-- `NewCapabilityIndex`. -/
def NewCapabilityIndex (c : Capability) : CapabilityIndex := ⟨some c, some empty, some empty, 0⟩

/-- `KadParams`, the fields the modelled functions read. `reachable` is the nil-able `Reachable`
hook. The Go fields are `int` and `int64`, 64 bits wide. -/
structure KadParams where
  maxProxDisplay : Int
  neighbourhoodSize : Int
  minBinSize : Int
  maxBinSize : Int
  retryInterval : Int
  retryExponent : Int
  maxRetries : Int
  reachable : Option (BzzAddr → Bool)

/-- `NewKadParams`. -/
def NewKadParams : KadParams := ⟨16, 2, 2, 16, 4200000000, 2, 42, none⟩

/-- `Kademlia`. The map `capabilityIndex` is a list of named indices, the names distinct, in one
iteration order: every loop over it updates each index on its own. -/
structure Kademlia where
  capabilityIndex : List (String × CapabilityIndex)
  capabilityIndex_nodup : (capabilityIndex.map Prod.fst).Nodup
  defaultIndex : CapabilityIndex
  params : KadParams
  base : Key 256
  saturationDepth : UInt8
  nDepth : Int

/-- The message of Go's nil-pointer panic. -/
def nilDeref : String := "invalid memory address or nil pointer dereference"

/-- `t.Size()`, which is 0 on a nil pot. -/
def potSize : Option (Pot Entry) → Int
  | none => 0
  | some t => t.size

/-- `uint8(x)`: the low eight bits. -/
def toUInt8 (x : Int) : UInt8 := UInt8.ofNat (x % 256).toNat

/-- `int64(x)`, and the result of `int64` arithmetic: `x` wrapped into `[-2^63, 2^63)`, in two's
complement. -/
def toInt64 (x : Int) : Int :=
  (x + 9223372036854775808) % 18446744073709551616 - 9223372036854775808

/-- `time.Since(t)` at clock reading `now`: the nanoseconds from `t` to `now`, saturated at the
bounds of a `time.Duration`, as `Time.Sub` does. -/
def timeSince (now t : Int) : Int :=
  max (-9223372036854775808) (min (now - t) 9223372036854775807)

/-- An `int64` result that fits is not wrapped. -/
theorem toInt64_of_range {x : Int} (h₁ : -9223372036854775808 ≤ x)
    (h₂ : x < 9223372036854775808) : toInt64 x = x := by
  unfold toInt64
  omega

/-- A `time.Duration` fits in an `int64`. -/
theorem timeSince_range (now t : Int) :
    -9223372036854775808 ≤ timeSince now t ∧ timeSince now t < 9223372036854775808 := by
  unfold timeSince
  omega

/-! ## Depths -/

/-- The consumer of `neighbourhoodRadiusForPot` on state `(size, depth)`: it passes over the
pivot itself (order 256), counts the others, and at the `neighbourhoodSize`-th takes its order as
the depth and stops. -/
def radiusConsumer (neighbourhoodSize : Int) (_ : Entry) (i : Nat) (s : Int × Int) :
    (Int × Int) × Bool :=
  if i = 256 then (s, true)
  else if s.1 + 1 = neighbourhoodSize then ((s.1 + 1, i), false)
  else ((s.1 + 1, s.2), true)

/-- `neighbourhoodRadiusForPot`: the order of the farthest of the `neighbourhoodSize` peers
nearest to the pivot, or 0 when there are no more peers than that. -/
def neighbourhoodRadiusForPot (p : Option (Pot Entry)) (neighbourhoodSize : Int)
    (pivotAddr : Key 256) : Int :=
  if potSize p ≤ neighbourhoodSize then 0
  else
    match p with
    | none => 0
    | some t => (eachNeighbour pivotAddr.bits pof (radiusConsumer neighbourhoodSize) t (0, 0)).1.2

/-- The consumer of `depthForPot` on the running `depth`: it goes on while the bins are at orders
`0, 1, ...` and stops at a gap or at `maxDepth`. -/
def depthConsumer (maxDepth : Int) (bin : Bin Entry) (depth : Int) : Int × Bool :=
  if (bin.proximityOrder : Int) = depth then
    if maxDepth = depth then (depth, false) else (depth + 1, true)
  else (depth, false)

/-- `depthForPot`: the first empty order from the pivot, but no deeper than the neighbourhood
radius. -/
def depthForPot (p : Option (Pot Entry)) (neighbourhoodSize : Int) (pivotAddr : Key 256) : Int :=
  if potSize p ≤ neighbourhoodSize then 0
  else
    let maxDepth := neighbourhoodRadiusForPot p neighbourhoodSize pivotAddr
    match p with
    | none => 0
    | some t => EachBin t pivotAddr.bits pof 0 (depthConsumer maxDepth) true 0

/-- `capabilityDepthForPot`. -/
def capabilityDepthForPot (idx : CapabilityIndex) (neighbourhoodSize : Int)
    (pivotAddr : Key 256) : Int :=
  depthForPot idx.conns neighbourhoodSize pivotAddr

namespace Kademlia

/-- `expectedMinBinSize`: `MinBinSize + (depth - po - 1)` clamped to `[MinBinSize, MaxBinSize]`,
the depth that of the default conns. -/
def expectedMinBinSize (k : Kademlia) (proximityOrder : Int) : Int :=
  let depth := depthForPot k.defaultIndex.conns k.params.neighbourhoodSize k.base
  let minBinSize := k.params.minBinSize + (depth - proximityOrder - 1)
  if minBinSize < k.params.minBinSize then k.params.minBinSize
  else if minBinSize > k.params.maxBinSize then k.params.maxBinSize
  else minBinSize

/-- The consumer of `saturation` on the running `prev`: it stops at the radius, at a gap, or at
a bin with fewer peers than expected. -/
def saturationConsumer (k : Kademlia) (radius : Int) (bin : Bin Entry) (prev : Int) :
    Int × Bool :=
  let expectedMinBinSize := k.expectedMinBinSize bin.proximityOrder
  let prev := prev + 1
  if (bin.proximityOrder : Int) ≥ radius then (prev, false)
  else (prev, decide (prev = bin.proximityOrder ∧ bin.size ≥ expectedMinBinSize))

/-- `saturation`: the number of full bins at orders `0, 1, ...` before the radius. -/
def saturation (k : Kademlia) : Int :=
  let radius := neighbourhoodRadiusForPot k.defaultIndex.conns k.params.neighbourhoodSize k.base
  let prev := match k.defaultIndex.conns with
    | none => -1
    | some t => EachBin t k.base.bits pof 0 (k.saturationConsumer radius) true (-1)
  if prev < 0 then 0 else prev

/-- The capability indices with each index replaced by `f` of it; the names stay. -/
def mapIndices (k : Kademlia) (f : CapabilityIndex → CapabilityIndex) : Kademlia :=
  { k with
    capabilityIndex := k.capabilityIndex.map fun e => (e.1, f e.2)
    capabilityIndex_nodup := by simpa [Function.comp_def] using k.capabilityIndex_nodup }

/-- `setNeighbourhoodDepth`: caches the depth of the default conns and of every capability
index's conns. -/
def setNeighbourhoodDepth (k : Kademlia) : Kademlia :=
  { k.mapIndices fun idx =>
      { idx with depth := capabilityDepthForPot idx k.params.neighbourhoodSize k.base } with
    nDepth := depthForPot k.defaultIndex.conns k.params.neighbourhoodSize k.base }

end Kademlia

end Swarm.Network
