import Swarm.Network.Closest
import Swarm.Network.Coherence
import Swarm.Network.Depth
import Swarm.Network.Saturation
import Swarm.Network.Hive

/-!
# Depth queries and the health check

`NeighbourhoodDepth`, `NeighbourhoodDepthCapability` and `IsWithinDepth` of network/kademlia.go
answer from the depths `setNeighbourhoodDepth` cached. In every state a run reaches they answer
from the current connections (`depth_queries_of_run`).

The health check, which the tests run, compares the table with an all-knowing `PeerPot`, the
nearest neighbours a node should have and the peers in each bin below its depth.
`knowNeighbours` and `connectedNeighbours` collect the known and the connected peers at the depth
of the conns or deeper, walking `eachAddr` and `eachConn` nearest first until the first shallower
peer, and count the expected neighbours among them; `isSaturated` walks the bins of the conns
below the depth; `GetHealthInfo` collects the results and `Healthy` is their conjunction.
`GetHealthInfo_eq` gives every field in closed form, read off the stored values alone: the
walks stop at the right place because the neighbours come nearest first, and `isSaturated` sees
every order below the depth because at each of them lies a bin (`exists_bin_below_depth`). In
every state a run reaches the conns entries hold their peers, so the check panics only where
`string` does, on a `MaxProxDisplay` that is not positive, and otherwise reports `healthOf` the
default pots and the hive text (`GetHealthInfo_of_run`).
-/

namespace Swarm.Network

open Pot

namespace Kademlia

variable {σ : Type}

/-! ## Depth queries -/

/-- `NeighbourhoodDepth`: the depth `setNeighbourhoodDepth` cached. -/
def NeighbourhoodDepth (k : Kademlia) : Int := k.nDepth

/-- `NeighbourhoodDepthCapability`: the cached depth of the capability index `s`, or -1 and the
error returned when there is none. -/
def NeighbourhoodDepthCapability (k : Kademlia) (s : String) : Int × Option String :=
  match k.capabilityIndex.lookup s with
  | none => (-1, some ("Unknown capability index " ++ s))
  | some idx => (idx.depth, none)

/-- `IsWithinDepth`: whether `addr` is at the cached depth or deeper from the base address. -/
def IsWithinDepth (k : Kademlia) (addr : Key 256) : Bool :=
  decide (k.NeighbourhoodDepth ≤ (pof addr.bits k.base.bits 0).1)

/-! ## Walks over the entries -/

/-- The walk `eachConn` and `eachAddr` share: `EachNeighbour` of `base` over `db`, or over `dflt`
when `db` is nil, passing over the entries deeper than `o` and handing `f` what `view` reads of
each entry, with its order. A nil pot is walked by none. -/
def eachEntry {β : Type} (view : Entry → β) (dflt db : Option (Pot Entry)) (base : Key 256)
    (o : Nat) (f : β → Nat → σ → σ × Bool) (s : σ) : σ :=
  match if db.isNone then dflt else db with
  | none => s
  | some t =>
    (eachNeighbour base.bits pof (fun e po s => if po > o then (s, true) else f (view e) po s)
      t s).1

/-- `eachAddr`: the walk over the addrs, or the default addrs when `db` is nil, handing `f` each
entry's `BzzAddr`. -/
def eachAddr (k : Kademlia) (base : Key 256) (db : Option (Pot Entry)) (o : Nat)
    (f : BzzAddr → Nat → σ → σ × Bool) (s : σ) : σ :=
  eachEntry Entry.bzzAddr k.defaultIndex.addrs db base o f s

/-- `EachAddr`: `eachAddr` over the default addrs. -/
def EachAddr (k : Kademlia) (base : Key 256) (o : Nat) (f : BzzAddr → Nat → σ → σ × Bool)
    (s : σ) : σ :=
  k.eachAddr base k.defaultIndex.addrs o f s

/-- `eachConn` is the walk over the conns handing `f` each entry's `conn`. -/
theorem eachConn_eq_eachEntry (k : Kademlia) (base : Key 256) (db : Option (Pot Entry)) (o : Nat)
    (f : Option Peer → Nat → σ → σ × Bool) (s : σ) :
    k.eachConn base db o f s = eachEntry Entry.conn k.defaultIndex.conns db base o f s := rfl

/-! ## The health check -/

/-- The consumer of `knowNeighbours`: it records the address of every peer at order `depth` or
deeper, and stops at the first shallower one. -/
def knownConsumer (depth : Int) (p : BzzAddr) (po : Nat) (pm : List (Key 256)) :
    List (Key 256) × Bool :=
  if (po : Int) < depth then (pm, false) else (pm ++ [p.oAddr], true)

/-- The consumer of `connectedNeighbours`. It stops at the first peer shallower than `depth` like
`knownConsumer`, and records the address of every other, read from the connection, whose nil
pointer panics. -/
def connectedConsumer (depth : Int) (p : Option Peer) (po : Nat) :
    Except String (List (Key 256)) → Except String (List (Key 256)) × Bool
  | .error e => (.error e, false)
  | .ok pm =>
    if (po : Int) < depth then (.ok pm, false)
    else
      match p with
      | none => (throw nilDeref, false)
      | some p => (.ok (pm ++ [p.bzzAddr.oAddr]), true)

/-- The loop `knowNeighbours` and `connectedNeighbours` end with: the addresses of `addrs` found
among `pm` are counted and the others collected; the first component says all were found. -/
def tallyNeighbours (pm addrs : List (Key 256)) : Bool × Nat × List (Key 256) :=
  let r := addrs.foldl (fun (r : Nat × List (Key 256)) p =>
    if p ∈ pm then (r.1 + 1, r.2) else (r.1, r.2 ++ [p])) (0, [])
  (r.1 == addrs.length, r.1, r.2)

/-- `knowNeighbours`: the known peers at the depth of the conns or deeper, walked with
`eachAddr` from the base address, and the tally of `addrs` among them. -/
def knowNeighbours (k : Kademlia) (addrs : List (Key 256)) : Bool × Nat × List (Key 256) :=
  let depth := depthForPot k.defaultIndex.conns k.params.neighbourhoodSize k.base
  tallyNeighbours (k.eachAddr k.base k.defaultIndex.addrs 255 (knownConsumer depth) []) addrs

/-- `connectedNeighbours`: the connected peers at the depth of the conns or deeper, walked with
`eachConn` from the base address over the default conns, and the tally of `peers` among them. -/
def connectedNeighbours (k : Kademlia) (peers : List (Key 256)) :
    Except String (Bool × Nat × List (Key 256)) := do
  let depth := depthForPot k.defaultIndex.conns k.params.neighbourhoodSize k.base
  let pm ← k.eachConn k.base none 255 (connectedConsumer depth) (.ok [])
  pure (tallyNeighbours pm peers)

/-- The consumer of `isSaturated`'s `EachBin` on the unsaturated orders found so far: it stops at
the first bin at `depth` or deeper, and notes an order whose bin holds fewer connections than
`expectedMinBinSize` asks and than `peersPerBin` offers. Reading `peersPerBin` past its end
panics. -/
def saturatedConsumer (k : Kademlia) (peersPerBin : List Int) (depth : Int) (bin : Bin Entry) :
    Except String (List Nat) → Except String (List Nat) × Bool
  | .error e => (.error e, false)
  | .ok unsaturatedBins =>
    let po := bin.proximityOrder
    let expectedMinBinSize := k.expectedMinBinSize po
    if (po : Int) ≥ depth then (.ok unsaturatedBins, false)
    else
      match peersPerBin[po]? with
      | none => (throw ("index out of range [" ++ toString po ++ "] with length " ++
          toString peersPerBin.length), false)
      | some n =>
        if bin.size < expectedMinBinSize ∧ bin.size < n then (.ok (unsaturatedBins ++ [po]), true)
        else (.ok unsaturatedBins, true)

/-- `isSaturated`: false unless `depth` is the length of `peersPerBin`; otherwise whether no bin
of the conns below `depth` is unsaturated. -/
def isSaturated (k : Kademlia) (peersPerBin : List Int) (depth : Int) : Except String Bool :=
  if depth ≠ peersPerBin.length then pure false
  else do
    let unsaturatedBins ← match k.defaultIndex.conns with
      | none => pure []
      | some t => EachBin t k.base.bits pof 0 (k.saturatedConsumer peersPerBin depth) true (.ok [])
    pure (unsaturatedBins.length == 0)

end Kademlia

/-- `PeerPot`: the nearest neighbours a node should have, and the number of peers it could
connect to in each bin below its depth. -/
structure PeerPot where
  nnSet : List (Key 256)
  peersPerBin : List Int

/-- `Health`. -/
structure Health where
  knowNN : Bool
  countKnowNN : Nat
  missingKnowNN : List (Key 256)
  connectNN : Bool
  countConnectNN : Nat
  missingConnectNN : List (Key 256)
  saturated : Bool
  hive : String
deriving DecidableEq, Repr

/-- `GetHealthInfo`: the results of `connectedNeighbours`, `knowNeighbours` and `isSaturated`
for the peer pot, at the depth of the conns, and the text `string` makes of the table, with the
commit hash and the clock reading it shows. -/
def Kademlia.GetHealthInfo (k : Kademlia) (gitCommit now : String) (pp : PeerPot) :
    Except String Health := do
  let (gotnn, countgotnn, culpritsgotnn) ← k.connectedNeighbours pp.nnSet
  let (knownn, countknownn, culpritsknownn) := k.knowNeighbours pp.nnSet
  let depth := depthForPot k.defaultIndex.conns k.params.neighbourhoodSize k.base
  let saturated ← k.isSaturated pp.peersPerBin depth
  let hive ← k.string gitCommit now
  pure ⟨knownn, countknownn, culpritsknownn, gotnn, countgotnn, culpritsgotnn, saturated, hive⟩

/-- `Healthy`: all neighbours known and connected, at least one known, and saturated. -/
def Health.Healthy (h : Health) : Bool :=
  h.knowNN && h.connectNN && decide (h.countKnowNN > 0) && h.saturated

/-! ## What the check reports -/

/-- The overlay addresses, read through `view`, of the entries of `t` other than `base` at order
`depth` or deeper from it. -/
def nearAddrs (view : Entry → Option (Key 256)) (t : Pot Entry) (base : Key 256) (depth : Int) :
    List (Key 256) :=
  (vals t).filterMap fun e =>
    if address e ≠ base ∧ depth ≤ cpl (address e).bits base.bits then view e else none

/-- Order `po` of the conns `t` is saturated: it holds the connections `expectedMinBinSize` asks,
or all the peers `peersPerBin` offers there. -/
def Kademlia.binSaturated (k : Kademlia) (t : Pot Entry) (peersPerBin : List Int) (po : Nat) :
    Bool :=
  decide (k.expectedMinBinSize po ≤ countAt k.base (vals t) po ∨
    peersPerBin.getD po 0 ≤ countAt k.base (vals t) po)

/-- The report of a table with conns `c` and addrs `a`, read off their values: the expected
neighbours found among the known addresses, and among the connected peers, at the depth of the
conns or deeper, and whether the depth is the number of orders `peersPerBin` covers and each of
them is saturated. -/
def Kademlia.healthOf (k : Kademlia) (c a : Pot Entry) (pp : PeerPot) (hive : String) : Health :=
  let depth := depthForPot (some c) k.params.neighbourhoodSize k.base
  let known := nearAddrs (fun e => some e.bzzAddr.oAddr) a k.base depth
  let connected := nearAddrs (fun e => e.conn.map (·.bzzAddr.oAddr)) c k.base depth
  ⟨pp.nnSet.all (· ∈ known), pp.nnSet.countP (· ∈ known), pp.nnSet.filter (· ∉ known),
    pp.nnSet.all (· ∈ connected), pp.nnSet.countP (· ∈ connected),
    pp.nnSet.filter (· ∉ connected),
    decide (depth = pp.peersPerBin.length) &&
      (List.range pp.peersPerBin.length).all (k.binSaturated c pp.peersPerBin), hive⟩

/-! ## The walks on valid pots -/

/-- On a valid pot, `EachNeighbour` from a key feeds its consumer the stored values, each once
with its order, nearest first. -/
theorem eachNeighbour_valid {t : Pot Entry} (ht : Valid t) (base : Key 256) :
    ∃ L : List (Entry × Nat), (L.map Prod.fst).Perm (vals t) ∧
      (∀ p ∈ L, p.2 = cpl (address p.1).bits base.bits) ∧ (L.map Prod.snd).Pairwise (· ≥ ·) ∧
      ∀ {σ : Type} (consume : Entry → Nat → σ → σ × Bool) (s : σ),
        (eachNeighbour base.bits pof consume t s).1 = (feed (fun p => consume p.1 p.2) L s).1 := by
  rcases ht with rfl | ⟨hpo, hwf, -⟩
  · exact ⟨[], by simp [empty, newPot], by simp, by simp, fun _ _ => rfl⟩
  · have hfloor : ∀ x, t.pin = some x → t.po ≤ cpl (address x).bits base.bits :=
      fun _ _ => by rw [hpo]; exact Nat.zero_le _
    exact ⟨_, neighboursOf_fst _ _ hwf, fun p hp => (neighboursOf_sound base hwf hfloor p.1 p.2 hp).2,
      neighboursOf_sorted base hwf hfloor, fun consume s => by rw [eachNeighbour_eq _ _ consume hwf]; rfl⟩

namespace Kademlia

/-- The walk over a valid pot feeds the stored values nearest first, passing over those deeper
than `o`. -/
theorem eachEntry_valid {β : Type} (view : Entry → β) (dflt db : Option (Pot Entry))
    {t : Pot Entry} (hdb : (if db.isNone then dflt else db) = some t) (ht : Valid t)
    (base : Key 256) (o : Nat) :
    ∃ L : List (Entry × Nat), (L.map Prod.fst).Perm (vals t) ∧
      (∀ p ∈ L, p.2 = cpl (address p.1).bits base.bits) ∧ (L.map Prod.snd).Pairwise (· ≥ ·) ∧
      ∀ {σ : Type} (f : β → Nat → σ → σ × Bool) (s : σ),
        eachEntry view dflt db base o f s =
          (feed (fun p s => if p.2 > o then (s, true) else f (view p.1) p.2 s) L s).1 := by
  obtain ⟨L, hperm, hcpl, hsorted, hfeed⟩ := eachNeighbour_valid ht base
  refine ⟨L, hperm, hcpl, hsorted, fun f s => ?_⟩
  rw [eachEntry, hdb]
  exact hfeed _ s

/-- `knownConsumer` behind the walk's pass over orders above 255, fed values nearest first,
records the addresses at orders from `depth` to 255. -/
theorem feed_knownConsumer (depth : Int) :
    ∀ (L : List (Entry × Nat)) (pm : List (Key 256)), (L.map Prod.snd).Pairwise (· ≥ ·) →
      (feed (fun p s => if p.2 > 255 then (s, true) else knownConsumer depth p.1.bzzAddr p.2 s)
        L pm).1 =
        pm ++ (L.filter fun p => p.2 ≤ 255 ∧ depth ≤ p.2).map fun p => p.1.bzzAddr.oAddr
  | [], pm, _ => by simp
  | (e, q) :: L, pm, hs => by
    rw [List.map_cons, List.pairwise_cons, List.forall_mem_map] at hs
    rw [feed_cons]
    by_cases h255 : q > 255
    · rw [List.filter_cons_of_neg (by simp; omega), ← feed_knownConsumer depth L pm hs.2]
      simp only [h255, if_true]
    · by_cases hd : (q : Int) < depth
      · have hnil : L.filter (fun p => p.2 ≤ 255 ∧ depth ≤ p.2) = [] :=
          List.filter_eq_nil_iff.2 fun p hp => by
            have := hs.1 p hp
            simp only [decide_eq_true_eq]
            omega
        rw [List.filter_cons_of_neg (by simp; omega), hnil]
        simp [knownConsumer, h255, hd]
      · have hstep : (if q > 255 then (pm, true) else knownConsumer depth e.bzzAddr q pm) =
            (pm ++ [e.bzzAddr.oAddr], true) := by simp [knownConsumer, h255, hd]
        rw [hstep, List.filter_cons_of_pos (by simp; omega)]
        simp only [if_true, feed_knownConsumer depth L _ hs.2, List.map_cons, List.append_assoc,
          List.singleton_append]

/-- `connectedConsumer` behind the walk's pass over orders above 255, fed values nearest first
that all have a connection, records the connections' addresses at orders from `depth` to
255. -/
theorem feed_connectedConsumer (depth : Int) :
    ∀ (L : List (Entry × Nat)) (pm : List (Key 256)), (L.map Prod.snd).Pairwise (· ≥ ·) →
      (∀ p ∈ L, p.1.conn.isSome) →
      (feed (fun p s => if p.2 > 255 then (s, true) else connectedConsumer depth p.1.conn p.2 s)
        L (.ok pm)).1 =
        .ok (pm ++ (L.filter fun p => p.2 ≤ 255 ∧ depth ≤ p.2).filterMap
          fun p => p.1.conn.map (·.bzzAddr.oAddr))
  | [], pm, _, _ => by simp
  | (e, q) :: L, pm, hs, hconn => by
    rw [List.map_cons, List.pairwise_cons, List.forall_mem_map] at hs
    have hconn' := fun p hp => hconn p (List.mem_cons_of_mem _ hp)
    rw [feed_cons]
    by_cases h255 : q > 255
    · rw [List.filter_cons_of_neg (by simp; omega), ← feed_connectedConsumer depth L pm hs.2 hconn']
      simp only [h255, if_true]
    · by_cases hd : (q : Int) < depth
      · have hnil : L.filter (fun p => p.2 ≤ 255 ∧ depth ≤ p.2) = [] :=
          List.filter_eq_nil_iff.2 fun p hp => by
            have := hs.1 p hp
            simp only [decide_eq_true_eq]
            omega
        rw [List.filter_cons_of_neg (by simp; omega), hnil]
        simp [connectedConsumer, h255, hd]
      · obtain ⟨c, hc⟩ : ∃ c, e.conn = some c :=
          Option.isSome_iff_exists.1 (hconn (e, q) (.head _))
        have hstep : (if q > 255 then (.ok pm, true) else connectedConsumer depth e.conn q (.ok pm)) =
            (.ok (pm ++ [c.bzzAddr.oAddr]), true) := by simp [connectedConsumer, h255, hd, hc]
        rw [hstep, List.filter_cons_of_pos (by simp; omega)]
        simp only [if_true, feed_connectedConsumer depth L _ hs.2 hconn', List.filterMap_cons, hc,
          Option.map_some', List.append_assoc, List.singleton_append]

/-- The tally counts the addresses `pm` holds, in the order given, and collects the others. -/
theorem tallyNeighbours_eq (pm addrs : List (Key 256)) :
    tallyNeighbours pm addrs =
      (addrs.all (· ∈ pm), addrs.countP (· ∈ pm), addrs.filter (· ∉ pm)) := by
  have hfold : ∀ (l : List (Key 256)) (n : Nat) (c : List (Key 256)),
      l.foldl (fun (r : Nat × List (Key 256)) p =>
        if p ∈ pm then (r.1 + 1, r.2) else (r.1, r.2 ++ [p])) (n, c) =
        (n + l.countP (· ∈ pm), c ++ l.filter (· ∉ pm)) := by
    intro l
    induction l with
    | nil => simp
    | cons a l ih =>
      intro n c
      by_cases ha : a ∈ pm
      · simp [ha, ih, List.countP_cons, Nat.add_assoc, Nat.add_comm 1]
      · simp [ha, ih, List.countP_cons]
  simp only [tallyNeighbours, hfold, Nat.zero_add, List.nil_append]
  congr 1
  rw [Bool.eq_iff_iff, beq_iff_eq, List.countP_eq_length, List.all_eq_true]

/-- The addresses a walk over the values of a valid pot collects at orders from `depth` to 255,
read through `view`, are those of `nearAddrs`. -/
theorem mem_walk_iff {t : Pot Entry} {base : Key 256} {L : List (Entry × Nat)}
    (hperm : (L.map Prod.fst).Perm (vals t)) (hcpl : ∀ p ∈ L, p.2 = cpl (address p.1).bits base.bits)
    (view : Entry → Option (Key 256)) (depth : Int) (x : Key 256) :
    x ∈ (L.filter fun p => p.2 ≤ 255 ∧ depth ≤ p.2).filterMap (fun p => view p.1) ↔
      x ∈ nearAddrs view t base depth := by
  have hne : ∀ e : Entry, cpl (address e).bits base.bits ≤ 255 ↔ address e ≠ base := fun e =>
    ⟨fun h heq => by rw [heq, Key.cpl_eq_iff.2 rfl] at h; omega,
      fun h => Nat.le_of_lt_succ (Key.cpl_lt h)⟩
  simp only [nearAddrs, List.mem_filterMap, List.mem_filter, decide_eq_true_eq]
  constructor
  · rintro ⟨p, ⟨hp, h255, hd⟩, hx⟩
    refine ⟨p.1, hperm.subset (List.mem_map_of_mem _ hp), ?_⟩
    rw [hcpl p hp, hne] at h255
    rw [hcpl p hp] at hd
    rwa [if_pos ⟨h255, hd⟩]
  · rintro ⟨e, he, hx⟩
    split at hx
    · rename_i h
      obtain ⟨p, hp, rfl⟩ := List.mem_map.1 (hperm.symm.subset he)
      exact ⟨p, ⟨hp, by rw [hcpl p hp, hne]; exact h.1, by rw [hcpl p hp]; exact h.2⟩, hx⟩
    · cases hx

/-- The tally reads only which addresses `pm` holds. -/
theorem tallyNeighbours_congr {pm pm' : List (Key 256)} (h : ∀ a, a ∈ pm ↔ a ∈ pm')
    (addrs : List (Key 256)) : tallyNeighbours pm addrs = tallyNeighbours pm' addrs := by
  simp only [tallyNeighbours, h]

/-- On a valid addrs pot, `knowNeighbours` tallies the expected neighbours among the addresses
stored at the depth of the conns or deeper, the base left out. -/
theorem knowNeighbours_eq {k : Kademlia} {a : Pot Entry} (ha : k.defaultIndex.addrs = some a)
    (hv : Valid a) (addrs : List (Key 256)) :
    k.knowNeighbours addrs = tallyNeighbours (nearAddrs (fun e => some e.bzzAddr.oAddr) a k.base
      (depthForPot k.defaultIndex.conns k.params.neighbourhoodSize k.base)) addrs := by
  obtain ⟨L, hperm, hcpl, hsorted, hfeed⟩ := eachEntry_valid Entry.bzzAddr
    k.defaultIndex.addrs k.defaultIndex.addrs (by simp [ha]) hv k.base 255
  rw [knowNeighbours, eachAddr, hfeed, feed_knownConsumer _ L [] hsorted, List.nil_append]
  refine tallyNeighbours_congr (fun x => ?_) addrs
  rw [← mem_walk_iff hperm hcpl]
  simp only [List.mem_map, List.mem_filterMap, Option.some.injEq]

/-- On a valid conns pot whose entries all hold their peers, `connectedNeighbours` does not panic
and tallies the expected neighbours among the connected peers at the depth of the conns or
deeper. -/
theorem connectedNeighbours_eq {k : Kademlia} {c : Pot Entry} (hc : k.defaultIndex.conns = some c)
    (hv : Valid c) (hlive : ∀ e ∈ vals c, e.conn.isSome) (peers : List (Key 256)) :
    k.connectedNeighbours peers = .ok (tallyNeighbours
      (nearAddrs (fun e => e.conn.map (·.bzzAddr.oAddr)) c k.base
        (depthForPot k.defaultIndex.conns k.params.neighbourhoodSize k.base)) peers) := by
  obtain ⟨L, hperm, hcpl, hsorted, hfeed⟩ :=
    eachEntry_valid Entry.conn k.defaultIndex.conns none (by simp [hc]) hv
      k.base 255
  have hlive' : ∀ p ∈ L, p.1.conn.isSome := fun p hp =>
    hlive p.1 (hperm.subset (List.mem_map_of_mem _ hp))
  rw [connectedNeighbours, eachConn_eq_eachEntry, hfeed,
    feed_connectedConsumer _ L [] hsorted hlive', List.nil_append]
  exact congrArg Except.ok
    (tallyNeighbours_congr (mem_walk_iff hperm hcpl (fun e => e.conn.map (·.bzzAddr.oAddr)) _) peers)

/-- `saturatedConsumer`, fed bins at strictly ascending orders with the depth the length of
`peersPerBin`, notes the orders below it whose bins hold fewer connections than
`expectedMinBinSize` asks and than `peersPerBin` offers, and never reads past its end. -/
theorem feed_saturatedConsumer (k : Kademlia) (peersPerBin : List Int) :
    ∀ (L : List (Bin Entry)) (us : List Nat), (L.map Bin.proximityOrder).Pairwise (· < ·) →
      (feed (k.saturatedConsumer peersPerBin peersPerBin.length) L (.ok us)).1 =
        .ok (us ++ (L.filter fun B => B.proximityOrder < peersPerBin.length ∧
          B.size < k.expectedMinBinSize B.proximityOrder ∧
          B.size < peersPerBin.getD B.proximityOrder 0).map Bin.proximityOrder)
  | [], us, _ => by simp
  | B :: L, us, hs => by
    rw [List.map_cons, List.pairwise_cons, List.forall_mem_map] at hs
    rw [feed_cons]
    by_cases hd : B.proximityOrder < peersPerBin.length
    · have hget : peersPerBin[B.proximityOrder]? = some (peersPerBin.getD B.proximityOrder 0) := by
        rw [List.getD_eq_getElem?_getD, List.getElem?_eq_getElem hd, Option.getD_some]
      have hlt : ¬ (B.proximityOrder : Int) ≥ peersPerBin.length := by omega
      by_cases hu : B.size < k.expectedMinBinSize B.proximityOrder ∧
          B.size < peersPerBin.getD B.proximityOrder 0
      · have hstep : k.saturatedConsumer peersPerBin peersPerBin.length B (.ok us) =
            (.ok (us ++ [B.proximityOrder]), true) := by
          simp only [saturatedConsumer, if_neg hlt, hget, if_pos hu]
        rw [hstep, List.filter_cons_of_pos (by simpa [hd] using hu)]
        simp only [if_true, feed_saturatedConsumer k peersPerBin L _ hs.2, List.map_cons,
          List.append_assoc, List.singleton_append]
      · have hstep : k.saturatedConsumer peersPerBin peersPerBin.length B (.ok us) =
            (.ok us, true) := by
          simp only [saturatedConsumer, if_neg hlt, hget, if_neg hu]
        rw [hstep, List.filter_cons_of_neg (by simpa [hd] using hu)]
        exact feed_saturatedConsumer k peersPerBin L us hs.2
    · have hnil : L.filter (fun B' => B'.proximityOrder < peersPerBin.length ∧
          B'.size < k.expectedMinBinSize B'.proximityOrder ∧
          B'.size < peersPerBin.getD B'.proximityOrder 0) = [] :=
        List.filter_eq_nil_iff.2 fun B' hB' => by
          have := hs.1 B' hB'
          simp only [decide_eq_true_eq, not_and]
          omega
      rw [List.filter_cons_of_neg (by simp [hd]), hnil]
      simp [saturatedConsumer, Nat.le_of_not_lt hd]

/-- At every order below the depth of a valid pot lies one of the bins `EachBin` presents. -/
theorem exists_bin_below_depth {t : Pot Entry} (ht : Valid t) (neighbourhoodSize : Int)
    (base : Key 256) {q : Nat} (hq : (q : Int) < depthForPot (some t) neighbourhoodSize base) :
    ∃ B ∈ binsOf base.bits pof 0 t, B.proximityOrder = q := by
  have hg := groups_of_valid base 0 ht
  unfold depthForPot at hq
  split at hq
  · omega
  · have hr : (((0 : Nat) : Int)) ≤ neighbourhoodRadiusForPot (some t) neighbourhoodSize base := by
      rcases radius_cases ht neighbourhoodSize base with h | ⟨v, -, h⟩ <;> rw [h] <;> omega
    obtain ⟨d, hd, -, -, hbins, -⟩ := feed_depthConsumer _ (binsOf base.bits pof 0 t) 0 hg.sorted
      (fun _ _ => Nat.zero_le _) hr
    simp only [EachBin, if_true, eachBin_eq] at hq
    rw [Nat.cast_zero] at hd
    rw [hd] at hq
    exact hbins q (Nat.zero_le _) (by omega)

/-- On a valid conns pot, `isSaturated` at the depth of the conns does not panic: it reports
whether the depth is the number of orders `peersPerBin` covers and each order below it is
saturated. -/
theorem isSaturated_eq {k : Kademlia} {c : Pot Entry} (hc : k.defaultIndex.conns = some c)
    (hv : Valid c) (peersPerBin : List Int) :
    k.isSaturated peersPerBin (depthForPot (some c) k.params.neighbourhoodSize k.base) =
      .ok (decide (depthForPot (some c) k.params.neighbourhoodSize k.base = peersPerBin.length) &&
        (List.range peersPerBin.length).all (k.binSaturated c peersPerBin)) := by
  unfold isSaturated
  split
  · rename_i hne
    simp only [hne, decide_False, Bool.false_and]
    rfl
  · rename_i hlen
    rw [not_not] at hlen
    have hg := groups_of_valid k.base 0 hv
    have hsize : ∀ B ∈ binsOf k.base.bits pof 0 c, B.size = countAt k.base (vals c) B.proximityOrder :=
      fun B hB => by rw [hg.size_eq B hB, hg.countAt_bin hB]
    simp only [hc, hlen, EachBin, if_true, eachBin_eq, decide_True, Bool.true_and, bind,
      Except.bind, pure, Except.pure]
    rw [feed_saturatedConsumer k peersPerBin (binsOf k.base.bits pof 0 c) [] hg.sorted,
      List.nil_append]
    refine congrArg Except.ok ?_
    rw [Bool.eq_iff_iff, beq_iff_eq, List.length_map, List.length_eq_zero, List.filter_eq_nil_iff,
      List.all_eq_true]
    simp only [List.mem_range, binSaturated, decide_eq_true_eq]
    constructor
    · intro h po hpo
      obtain ⟨B, hB, rfl⟩ := exists_bin_below_depth hv k.params.neighbourhoodSize k.base
        (q := po) (by rw [hlen]; exact_mod_cast hpo)
      have := h B hB
      rw [hsize B hB] at this
      simp only [decide_eq_true_eq, not_and, not_lt] at this
      by_contra hno
      push_neg at hno
      exact absurd (this hpo hno.1) (not_le.2 hno.2)
    · intro h B hB
      have := h B.proximityOrder
      rw [← hsize B hB] at this
      simp only [decide_eq_true_eq, not_and, not_lt]
      intro hpo hlt
      exact (this hpo).resolve_left (not_le.2 hlt)

/-! ## The health check in closed form -/

/-- On valid default pots whose conns entries all hold their peers, `GetHealthInfo` panics only
when `string` does, and otherwise reports `healthOf` the pots and the hive text. -/
theorem GetHealthInfo_eq {k : Kademlia} {c a : Pot Entry} (hc : k.defaultIndex.conns = some c)
    (ha : k.defaultIndex.addrs = some a) (hcv : Valid c) (hav : Valid a)
    (hlive : ∀ e ∈ vals c, e.conn.isSome) (gitCommit now : String) (pp : PeerPot) :
    k.GetHealthInfo gitCommit now pp = (k.string gitCommit now).map (k.healthOf c a pp) := by
  simp only [GetHealthInfo, connectedNeighbours_eq hc hcv hlive, knowNeighbours_eq ha hav, hc,
    isSaturated_eq hc hcv, tallyNeighbours_eq, bind, Except.bind, pure, Except.pure]
  cases k.string gitCommit now <;> rfl

/-- `Healthy` of the report of conns `c` and addrs `a`: every expected neighbour is known and
connected at the depth of the conns or deeper, one at least is known, the depth is the number of
orders `peersPerBin` covers, and each of them is saturated. -/
theorem healthOf_Healthy_iff (k : Kademlia) (c a : Pot Entry) (pp : PeerPot) (hive : String) :
    (k.healthOf c a pp hive).Healthy = true ↔
      (∀ x ∈ pp.nnSet, x ∈ nearAddrs (fun e => some e.bzzAddr.oAddr) a k.base
          (depthForPot (some c) k.params.neighbourhoodSize k.base) ∧
        x ∈ nearAddrs (fun e => e.conn.map (·.bzzAddr.oAddr)) c k.base
          (depthForPot (some c) k.params.neighbourhoodSize k.base)) ∧
      (∃ x ∈ pp.nnSet, x ∈ nearAddrs (fun e => some e.bzzAddr.oAddr) a k.base
          (depthForPot (some c) k.params.neighbourhoodSize k.base)) ∧
      depthForPot (some c) k.params.neighbourhoodSize k.base = pp.peersPerBin.length ∧
      ∀ po < pp.peersPerBin.length, k.binSaturated c pp.peersPerBin po = true := by
  simp only [Health.Healthy, healthOf, Bool.and_eq_true, List.all_eq_true, decide_eq_true_eq,
    gt_iff_lt, List.countP_pos_iff, List.mem_range, forall_and, and_assoc]

end Kademlia

/-- In every state reached from `NewKademlia` by calls that keep live addresses live, the default
pots are there and `GetHealthInfo` reports `healthOf` them and the hive text, unless `string`
panics: with a positive `MaxProxDisplay` it does not, nor with none while no peer is known; with a
negative one `make` panics, and with none a known peer panics on row `-1`. -/
theorem GetHealthInfo_of_run (isSameAs : Capability → Capability → Bool) {addr : Key 256}
    {params : KadParams} {full light : Capability} {calls : List Call} {k : Kademlia}
    (h : Run isSameAs keepsLive (NewKademlia addr params full light) calls k)
    (gitCommit now : String) (pp : PeerPot) :
    ∃ c a, k.defaultIndex.conns = some c ∧ k.defaultIndex.addrs = some a ∧
      ((0 < k.params.maxProxDisplay ∨ k.params.maxProxDisplay = 0 ∧ vals a = []) →
        ∃ hive, k.string gitCommit now = .ok hive ∧
          k.GetHealthInfo gitCommit now pp = .ok (k.healthOf c a pp hive)) ∧
      (k.params.maxProxDisplay < 0 →
        k.GetHealthInfo gitCommit now pp = .error "runtime error: makeslice: len out of range") ∧
      (k.params.maxProxDisplay = 0 → vals a ≠ [] →
        k.GetHealthInfo gitCommit now pp = .error "runtime error: index out of range [-1]") := by
  obtain ⟨c, a, hc, ha, hf⟩ := flags_run isSameAs h (flags_new addr params full light)
  have heq := Kademlia.GetHealthInfo_eq hc ha hf.conns_valid hf.addrs_valid
    (fun e he => hf.live _ e (lookup_of_mem hf.conns_valid he)) gitCommit now pp
  have hzero := Kademlia.string_zero gitCommit now hc ha hf.conns_valid hf.addrs_valid
  refine ⟨c, a, hc, ha, fun hm => ?_, fun hm => by rw [heq, Kademlia.string_neg gitCommit now hm]; rfl,
    fun hm hna => by rw [heq, hzero hm hf.conns_nil, if_neg hna]; rfl⟩
  obtain ⟨hive, hs⟩ : ∃ hive, k.string gitCommit now = .ok hive := by
    rcases hm with hpos | ⟨h0, hna⟩
    · obtain ⟨m, hmeq⟩ := Int.eq_ofNat_of_zero_le hpos.le
      exact ⟨_, Kademlia.string_pos gitCommit now hc ha hf.conns_valid hf.addrs_valid hmeq
        (by omega)⟩
    · exact ⟨_, by rw [hzero h0 hf.conns_nil, if_pos hna]⟩
  exact ⟨hive, hs, by rw [heq, hs]; rfl⟩

/-- The health check after one peer connects to a new table, with the default sixteen rows. -/
theorem GetHealthInfo_of_run_on :
    ∃ k, Run (fun a b => a == b) keepsLive (NewKademlia zeroKey NewKadParams ⟨0, [true]⟩ ⟨1, []⟩)
        [.on ⟨0, ⟨farKey, [1], [⟨0, [true]⟩]⟩⟩ 0] k ∧
      ∃ c a, k.defaultIndex.conns = some c ∧ k.defaultIndex.addrs = some a ∧
        ((0 < k.params.maxProxDisplay ∨ k.params.maxProxDisplay = 0 ∧ vals a = []) →
          ∃ hive, k.string "" "" = .ok hive ∧
            k.GetHealthInfo "" "" ⟨[farKey], []⟩ = .ok (k.healthOf c a ⟨[farKey], []⟩ hive)) ∧
        (k.params.maxProxDisplay < 0 → k.GetHealthInfo "" "" ⟨[farKey], []⟩ =
          .error "runtime error: makeslice: len out of range") ∧
        (k.params.maxProxDisplay = 0 → vals a ≠ [] → k.GetHealthInfo "" "" ⟨[farKey], []⟩ =
          .error "runtime error: index out of range [-1]") :=
  ⟨_, run_on_far, GetHealthInfo_of_run _ run_on_far "" "" ⟨[farKey], []⟩⟩

namespace Kademlia

/-! ## Depth queries over runs -/

/-- With the depths cached, `NeighbourhoodDepth` is the depth of the conns, `IsWithinDepth`
compares with it, and `NeighbourhoodDepthCapability` of a registered index is the depth of the
index's conns. -/
theorem depth_queries_of_cached {k : Kademlia} (h : Cached k.connsView) (addr : Key 256)
    (s : String) :
    k.NeighbourhoodDepth = depthForPot k.defaultIndex.conns k.params.neighbourhoodSize k.base ∧
    k.IsWithinDepth addr = decide (depthForPot k.defaultIndex.conns k.params.neighbourhoodSize
      k.base ≤ cpl addr.bits k.base.bits) ∧
    ∀ idx, k.capabilityIndex.lookup s = some idx →
      k.NeighbourhoodDepthCapability s = (depthForPot idx.conns k.params.neighbourhoodSize k.base,
        none) := by
  have hdepth : k.NeighbourhoodDepth =
      depthForPot k.defaultIndex.conns k.params.neighbourhoodSize k.base := h.nDepth_eq
  refine ⟨hdepth, ?_, fun idx hs => ?_⟩
  · rw [IsWithinDepth, hdepth, pof, Key.defaultPof_key (Nat.zero_le _)]
  · obtain ⟨l₁, l₂, hl, -⟩ := List.lookup_eq_some_iff.1 hs
    have hmem : (s, idx) ∈ k.capabilityIndex := hl ▸ List.mem_append_right _ (.head _)
    rw [NeighbourhoodDepthCapability, hs]
    exact congrArg (·, none) (h.depth_eq _ (List.mem_map_of_mem IndexView.of hmem))

/-- In every state reached from `NewKademlia` by calls that take `Off` only of a live peer, the
depth queries answer from the current connections: `NeighbourhoodDepth` is the depth of the
default conns, `IsWithinDepth` compares an address's order from the base with it, and
`NeighbourhoodDepthCapability` of a registered index is the depth of that index's conns. -/
theorem depth_queries_of_run (isSameAs : Capability → Capability → Bool) {addr : Key 256}
    {params : KadParams} {full light : Capability} {calls : List Call} {k : Kademlia}
    (h : Run isSameAs offLive (NewKademlia addr params full light) calls k) (a : Key 256)
    (s : String) :
    k.NeighbourhoodDepth = depthForPot k.defaultIndex.conns k.params.neighbourhoodSize k.base ∧
    k.IsWithinDepth a = decide (depthForPot k.defaultIndex.conns k.params.neighbourhoodSize
      k.base ≤ cpl a.bits k.base.bits) ∧
    ∀ idx, k.capabilityIndex.lookup s = some idx →
      k.NeighbourhoodDepthCapability s = (depthForPot idx.conns k.params.neighbourhoodSize k.base,
        none) :=
  depth_queries_of_cached (coherent_run isSameAs h (coherent_new addr params full light)).2 a s

/-- The depth queries after one peer connects to a new table. -/
theorem depth_queries_of_run_on :
    ∃ k, Run (fun a b => a == b) offLive (NewKademlia zeroKey NewKadParams ⟨0, [true]⟩ ⟨1, []⟩)
        [.on ⟨0, ⟨farKey, [1], [⟨0, [true]⟩]⟩⟩ 0] k ∧
      k.NeighbourhoodDepth = depthForPot k.defaultIndex.conns k.params.neighbourhoodSize k.base ∧
      k.IsWithinDepth farKey = decide (depthForPot k.defaultIndex.conns
        k.params.neighbourhoodSize k.base ≤ cpl farKey.bits k.base.bits) ∧
      ∀ idx, k.capabilityIndex.lookup "full" = some idx →
        k.NeighbourhoodDepthCapability "full" =
          (depthForPot idx.conns k.params.neighbourhoodSize k.base, none) := by
  let same : Capability → Capability → Bool := fun a b => a == b
  let k₀ := NewKademlia zeroKey NewKadParams ⟨0, [true]⟩ ⟨1, []⟩
  let p : Peer := ⟨0, ⟨farKey, [1], [⟨0, [true]⟩]⟩⟩
  let k₁ := (k₀.call same (.on p 0)).toOption.getD k₀
  have hrun : Run same offLive k₀ [.on p 0] k₁ := Run.snoc (Run.nil k₀) trivial rfl
  exact ⟨k₁, hrun, depth_queries_of_run same hrun farKey "full"⟩

end Kademlia

end Swarm.Network
