import Swarm.Network.Flags
import Swarm.Pot.Coverage

/-!
# IsClosestTo

`IsClosestTo(addr, filter)` of network/kademlia.go decides whether the node is nearer `addr` than
every connected peer that passes `filter`. It walks the connections with `EachConn(addr, 255, f)`,
nearest to `addr` first: the first filtered peer at an order other than the node's own decides,
and peers at the node's own order are compared by `pot.DistanceCmp`. `chunk.Proximity` and
`pot.DistanceCmp` are outside the sources and are modelled as the common-prefix length and the
comparison of XOR distances (`distanceCmp_eq_one_iff`).

`EachConn` passes over the connections deeper than order 255, that is a peer whose address is
`addr` itself. The main result, `IsClosestTo_skips_addr`, says that with one connection, at
`addr`, the node reports itself closest, while that peer is at XOR distance 0 from `addr`.
-/

namespace Swarm.Network

open Pot

/-! ## Distances -/

/-- `chunk.Proximity` (outside src): the common-prefix length of two addresses. -/
def Proximity (one other : Key 256) : Nat := cpl one.bits other.bits

/-- `pot.DistanceCmp(a, x, y)` (outside src): 1 when `x` is strictly nearer `a` than `y` in XOR
distance, -1 when strictly farther, 0 when as near. The first bit where `x` and `y` differ
decides, for the one that agrees with `a` there. -/
def DistanceCmp : Bits → Bits → Bits → Int
  | a :: as, x :: xs, y :: ys => if x = y then DistanceCmp as xs ys else if x = a then 1 else -1
  | _, _, _ => 0

/-- The number a bit string stands for, most significant bit first. -/
def bitsValue : Bits → Nat
  | [] => 0
  | b :: bs => (if b then 2 ^ bs.length else 0) + bitsValue bs

/-- The XOR distance of two addresses, as a number. -/
def xorDistance (a x : Bits) : Nat := bitsValue (List.zipWith xor a x)

/-- The value of a bit list is below two to the power of its length. -/
theorem bitsValue_lt : ∀ bs : Bits, bitsValue bs < 2 ^ bs.length
  | [] => by simp [bitsValue]
  | b :: bs => by
    have := bitsValue_lt bs
    simp only [bitsValue, List.length_cons, Nat.pow_succ]
    split <;> omega

/-- `DistanceCmp` answers 1 exactly when `x` is strictly nearer `a` than `y` in XOR distance. -/
theorem distanceCmp_eq_one_iff : ∀ {a x y : Bits}, x.length = a.length → y.length = a.length →
    (DistanceCmp a x y = 1 ↔ xorDistance a x < xorDistance a y)
  | [], [], [], _, _ => by simp [DistanceCmp, xorDistance, bitsValue]
  | a :: as, x :: xs, y :: ys, hx, hy => by
    simp only [List.length_cons, Nat.add_right_cancel_iff] at hx hy
    have ih := distanceCmp_eq_one_iff (a := as) hx hy
    have hxs := bitsValue_lt (List.zipWith xor as xs)
    have hys := bitsValue_lt (List.zipWith xor as ys)
    simp only [List.length_zipWith, hx, hy, min_self] at hxs hys
    simp only [DistanceCmp, xorDistance, List.zipWith_cons_cons, bitsValue, List.length_zipWith, hx,
      hy, min_self] at ih ⊢
    by_cases hxy : x = y
    · subst hxy
      rw [if_pos rfl, ih]
      omega
    · rw [if_neg hxy]
      cases a <;> cases x <;> cases y <;> simp_all <;> omega

/-- An address is strictly nearer itself than any other address of its length. -/
theorem distanceCmp_self :
    ∀ {a y : Bits}, y.length = a.length → y ≠ a → DistanceCmp a a y = 1
  | [], [], _, h => absurd rfl h
  | a :: as, y :: ys, hl, h => by
    simp only [List.length_cons, Nat.add_right_cancel_iff] at hl
    by_cases hy : a = y
    · subst hy
      rw [DistanceCmp, if_pos rfl]
      exact distanceCmp_self hl (fun e => h (e ▸ rfl))
    · rw [DistanceCmp, if_neg hy, if_pos rfl]

/-! ## The model -/

namespace Kademlia

variable {σ : Type}

/-- `eachConn`: `EachNeighbour` of `base` over `db`, or over the default conns when `db` is nil,
passing over the connections deeper than `o` and handing `f` each entry's `conn` with its order.
A nil pot is walked by none. -/
def eachConn (k : Kademlia) (base : Key 256) (db : Option (Pot Entry)) (o : Nat)
    (f : Option Peer → Nat → σ → σ × Bool) (s : σ) : σ :=
  match if db.isNone then k.defaultIndex.conns else db with
  | none => s
  | some t =>
    (eachNeighbour base.bits pof (fun e po s => if po > o then (s, true) else f e.conn po s) t s).1

/-- `EachConn`: `eachConn` over the default conns. -/
def EachConn (k : Kademlia) (base : Key 256) (o : Nat) (f : Option Peer → Nat → σ → σ × Bool)
    (s : σ) : σ :=
  k.eachConn base k.defaultIndex.conns o f s

/-- `IsClosestTo`. The closure's variable `closest` is the state, with the panic of reading the
`BzzPeer` of a nil `conn`. -/
def IsClosestTo (k : Kademlia) (addr : Key 256) (filter : Peer → Bool) : Except String Bool :=
  let myPo := Proximity addr k.base
  k.EachConn addr 255 (fun p po closest =>
    match closest, p with
    | .error e, _ => (.error e, false)
    | .ok _, none => (throw nilDeref, false)
    | .ok c, some p =>
      if !filter p then (.ok c, true)
      else if po ≠ myPo then (.ok (decide (po < myPo)), false)
      else if DistanceCmp addr.bits p.bzzAddr.oAddr.bits k.base.bits = 1 then (.ok false, false)
      else (.ok c, true)) (.ok true)

end Kademlia

/-! ## The connection at the address itself -/

/-- With one connection, to a peer whose address is `addr`, `IsClosestTo(addr, filter)` answers
true for every filter, while the peer is at XOR distance 0 from `addr` and the node, at another
address, farther. -/
theorem IsClosestTo_skips_addr (k : Kademlia) (p : Peer) (now : Int) (filter : Peer → Bool)
    (hbase : k.base ≠ p.bzzAddr.oAddr) :
    (k.setConns (some (newPot (some (newEntryFromPeer p now)) 0))).IsClosestTo p.bzzAddr.oAddr
        filter = .ok true ∧
      xorDistance p.bzzAddr.oAddr.bits p.bzzAddr.oAddr.bits <
        xorDistance p.bzzAddr.oAddr.bits k.base.bits := by
  have hlen : k.base.bits.length = p.bzzAddr.oAddr.bits.length := by
    rw [k.base.length_bits, p.bzzAddr.oAddr.length_bits]
  refine ⟨?_, (distanceCmp_eq_one_iff rfl hlen).1
    (distanceCmp_self hlen fun e => hbase (Key.ext' e))⟩
  simp [Kademlia.IsClosestTo, Kademlia.EachConn, Kademlia.eachConn, eachNeighbour, newPot,
    toBytes, pof, Key.defaultPof_key (Nat.zero_le _), eachNeighbourTail, consumePin, eachOf,
    eachNeighbourLoop, newEntryFromPeer, Key.cpl_eq_iff.2 rfl, Key.length_bits]

/-- A new table whose one connection is the peer at `farKey`: `IsClosestTo farKey` answers true,
although that peer is nearer to `farKey` than the base is. -/
theorem IsClosestTo_skips_addr_far :
    ((NewKademlia zeroKey NewKadParams ⟨0, []⟩ ⟨1, []⟩).setConns
        (some (newPot (some (newEntryFromPeer ⟨0, ⟨farKey, [1], []⟩⟩ 0)) 0))).IsClosestTo farKey
        (fun _ => true) = .ok true ∧
      xorDistance farKey.bits farKey.bits < xorDistance farKey.bits zeroKey.bits :=
  IsClosestTo_skips_addr _ ⟨0, ⟨farKey, [1], []⟩⟩ 0 _ (by decide)

end Swarm.Network
