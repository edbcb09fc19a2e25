import Swarm.Network.Health
import Swarm.Pot.Union

/-!
# The all-knowing peer pots

`NewPeerPotMap` of network/kademlia.go, which the tests use, adds every address of a network to
one table and gives each node its `PeerPot`: the peers at the node's depth in that table or
deeper, its nearest neighbours, and the number of peers in each bin below the depth. The table's
values are the addresses themselves; the model wraps each in an entry (`addrEntry`), which `Pof`
reads by its address alone, so the table has the same shape.

The table holds every address once (`mem_peerTable`), and its depth from a node is the depth of
any pot that holds the other nodes (`depthForPot_peerTable`): the radius and the first gap read
the orders of the other nodes only, and when the other nodes are exactly `neighbourhoodSize` many
both depths are 0. So the health check accepts a node that is connected to, and knows, every
other node of the network (`healthy_of_connected_pots`). In every state a run reaches, each
connection the conns hold is to a peer at its entry's key (`home_run`) and the addrs know every
live address, so a node is healthy as soon as it is connected to exactly the other nodes
(`healthy_of_connected_to_all`).
-/

namespace Swarm.Network

open Pot Kademlia

/-! ## The model -/

/-- An address as a table value: an entry with no underlay address, capabilities or
connection. -/
def addrEntry (a : Key 256) : Entry := ⟨⟨a, [], []⟩, none, 0, 0⟩

@[simp] theorem address_addrEntry (a : Key 256) : address (addrEntry a) = a := rfl

@[simp] theorem addrEntry_oAddr (a : Key 256) : (addrEntry a).bzzAddr.oAddr = a := rfl

/-- The consumer of `NewPeerPotMap`'s walk from a node, on the state `(nns, peersPerBin)`: it
passes over the node itself (order 256), collects the peers at `depth` or deeper, and counts
each peer below `depth` in its bin. Such an order is below `depth`, the length of
`peersPerBin`. -/
def peerPotConsumer (depth : Int) (e : Entry) (po : Nat) (s : List (Key 256) × List Int) :
    (List (Key 256) × List Int) × Bool :=
  if po = 256 then (s, true)
  else if (po : Int) ≥ depth then ((s.1 ++ [address e], s.2), true)
  else ((s.1, s.2.modify (· + 1) po), true)

/-- The `PeerPot` of node `a`: the walk of the table `np` from `a`, from no neighbours and
`depth` empty bins. -/
def peerPotFor (np : Pot Entry) (neighbourhoodSize : Int) (a : Key 256) : PeerPot :=
  let depth := depthForPot (some np) neighbourhoodSize a
  let r := (eachNeighbour a.bits pof (peerPotConsumer depth) np
    ([], List.replicate depth.toNat 0)).1
  ⟨r.1, r.2⟩

/-- The table of all nodes: the addresses added in turn to an empty pot. -/
def peerTable (addrs : List (Key 256)) : Pot Entry :=
  addrs.foldl (fun np addr => (Add np (addrEntry addr) pof).1) empty

/-- `NewPeerPotMap`: each address with its `PeerPot` in the table of all nodes. -/
def NewPeerPotMap (neighbourhoodSize : Int) (addrs : List (Key 256)) :
    List (Key 256 × PeerPot) :=
  addrs.map fun a => (a, peerPotFor (peerTable addrs) neighbourhoodSize a)

/-! ## The table -/

/-- Adding the entries of a list of addresses to a valid pot gives a valid pot that holds each of
them under its address and is unchanged elsewhere. -/
theorem foldl_add_lookup :
    ∀ (addrs : List (Key 256)) {t : Pot Entry}, Valid t →
      Valid (addrs.foldl (fun np addr => (Add np (addrEntry addr) pof).1) t) ∧
      ∀ x, lookup (addrs.foldl (fun np addr => (Add np (addrEntry addr) pof).1) t) x =
        if x ∈ addrs then some (addrEntry x) else lookup t x
  | [], t, ht => ⟨ht, fun x => by simp⟩
  | a :: addrs, t, ht => by
    obtain ⟨hv, hl⟩ := foldl_add_lookup addrs (add_valid ht (addrEntry a))
    refine ⟨hv, fun x => (hl x).trans ?_⟩
    rw [add_lookup ht]
    by_cases hx : x = a
    · subst hx
      simp
    · by_cases hm : x ∈ addrs <;> simp [hx, hm]

/-- The table is valid and holds each address of the network under its own key. -/
theorem peerTable_lookup (addrs : List (Key 256)) :
    Valid (peerTable addrs) ∧
      ∀ x, lookup (peerTable addrs) x = if x ∈ addrs then some (addrEntry x) else none := by
  obtain ⟨hv, hl⟩ := foldl_add_lookup addrs (t := empty) (.inl rfl)
  exact ⟨hv, fun x => by rw [peerTable, hl]; simp [lookup, empty, newPot]⟩

/-- The table of a network holds exactly its addresses. -/
theorem mem_peerTable (addrs : List (Key 256)) (x : Key 256) :
    x ∈ (vals (peerTable addrs)).map address ↔ x ∈ addrs := by
  have hl := (peerTable_lookup addrs).2 x
  constructor
  · rintro hx
    obtain ⟨v, hv, rfl⟩ := List.mem_map.1 hx
    rw [lookup_of_mem (peerTable_lookup addrs).1 hv] at hl
    by_contra h
    rw [if_neg h] at hl
    cases hl
  · intro hx
    rw [if_pos hx, lookup] at hl
    exact List.mem_map.2 ⟨addrEntry x, List.mem_of_find?_eq_some hl, rfl⟩

/-! ## The walk from a node -/

/-- `peerPotConsumer` never stops: it collects the peers off the node at `depth` or deeper, in
the order fed, and adds to the count of each order below `depth` the peers fed at that
order. -/
theorem feed_peerPotConsumer (depth : Int) :
    ∀ (L : List (Entry × Nat)) (s : List (Key 256) × List Int),
      (feed (fun p => peerPotConsumer depth p.1 p.2) L s).1.1 =
          s.1 ++ (L.filter fun p => p.2 ≠ 256 ∧ depth ≤ p.2).map (address ·.1) ∧
      ∀ i, (feed (fun p => peerPotConsumer depth p.1 p.2) L s).1.2[i]? =
          (s.2[i]?).map fun c =>
            c + ((L.countP fun p => p.2 = i ∧ p.2 ≠ 256 ∧ (p.2 : Int) < depth : Nat) : Int)
  | [], s => by simp
  | (e, q) :: L, s => by
    obtain ⟨ih₁, ih₂⟩ := feed_peerPotConsumer depth L (peerPotConsumer depth e q s).1
    have hgo : (peerPotConsumer depth e q s).2 = true := by
      unfold peerPotConsumer
      split_ifs <;> rfl
    rw [feed_cons]
    dsimp only
    rw [if_pos hgo]
    refine ⟨ih₁.trans ?_, fun i => (ih₂ i).trans ?_⟩
    · unfold peerPotConsumer
      split_ifs with h₁ h₂
      · simp [h₁]
      · simp [h₁, h₂]
      · simp [h₁, h₂]
    · unfold peerPotConsumer
      split_ifs with h₁ h₂
      · simp [List.countP_cons, h₁]
      · simp [List.countP_cons, Int.not_lt.2 h₂]
      · rw [List.getElem?_modify]
        rcases (s.2)[i]? with _ | c
        · rfl
        · by_cases hi : q = i
          · subst hi
            simp only [if_true, Option.map_some', List.countP_cons, h₁, Int.not_le.1 h₂]
            simp
            omega
          · simp [hi, List.countP_cons]

/-! ## Depths read off the other nodes -/

/-- The addresses of a pot's values other than `base`. -/
def othersOf (t : Pot Entry) (base : Key 256) : List (Key 256) :=
  ((vals t).map address).filter (· ≠ base)

/-- A value of a pot at an address other than `base` is an address of `othersOf`. -/
theorem exists_other_iff {t : Pot Entry} {base : Key 256} {P : Key 256 → Prop} :
    (∃ v ∈ vals t, address v ≠ base ∧ P (address v)) ↔ ∃ x ∈ othersOf t base, P x := by
  simp only [othersOf, List.mem_filter, List.mem_map, decide_eq_true_eq]
  constructor
  · rintro ⟨v, hv, hne, hP⟩
    exact ⟨_, ⟨⟨v, hv, rfl⟩, hne⟩, hP⟩
  · rintro ⟨_, ⟨⟨v, hv, rfl⟩, hne⟩, hP⟩
    exact ⟨v, hv, hne, hP⟩

/-- Two pots with the same other addresses have the same values at addresses other than `base`. -/
theorem exists_other_congr {t t' : Pot Entry} {base : Key 256}
    (h : (othersOf t base).Perm (othersOf t' base)) (P : Key 256 → Prop) :
    (∃ v ∈ vals t, address v ≠ base ∧ P (address v)) ↔
      ∃ v ∈ vals t', address v ≠ base ∧ P (address v) := by
  rw [exists_other_iff, exists_other_iff]
  exact ⟨fun ⟨x, hx, hq⟩ => ⟨x, h.subset hx, hq⟩, fun ⟨x, hx, hq⟩ => ⟨x, h.symm.subset hx, hq⟩⟩

/-- The orders of `closeness` come nearest first. -/
theorem closeness_sorted (t : Pot Entry) (base : Key 256) :
    (closeness t base).Pairwise (· ≥ ·) :=
  (List.sorted_mergeSort (fun a b c hab hbc => by simp only [decide_eq_true_eq] at *; omega)
    (fun a b => by simpa using Nat.le_total b a) _).imp (by simp)

/-- `closeness` lists the orders to `base` of the other addresses. -/
theorem closeness_perm (t : Pot Entry) (base : Key 256) :
    (closeness t base).Perm ((othersOf t base).map fun x => cpl x.bits base.bits) := by
  refine (List.mergeSort_perm _ _).trans ?_
  rw [othersOf, List.filter_map, List.map_map]
  rfl

/-- The closeness of a pot from `base` is read off the addresses other than `base`. -/
theorem closeness_eq_of_perm {t t' : Pot Entry} {base : Key 256}
    (h : (othersOf t base).Perm (othersOf t' base)) : closeness t base = closeness t' base :=
  List.eq_of_perm_of_sorted (r := (· ≥ ·))
    ((closeness_perm t base).trans ((h.map _).trans (closeness_perm t' base).symm))
    (closeness_sorted t base) (closeness_sorted t' base)

/-- Two valid pots of more than `neighbourhoodSize ≥ 1` values, whose values other than `base`
have the same addresses, have the same depth from `base`. -/
theorem depthForPot_eq_of_perm {t t' : Pot Entry} (ht : Valid t) (ht' : Valid t')
    {neighbourhoodSize : Int} (hn : 1 ≤ neighbourhoodSize) {base : Key 256}
    (h : (othersOf t base).Perm (othersOf t' base)) (hs : neighbourhoodSize < t.size)
    (hs' : neighbourhoodSize < t'.size) :
    depthForPot (some t) neighbourhoodSize base = depthForPot (some t') neighbourhoodSize base := by
  obtain ⟨r, hr, hrad⟩ := radius_eq ht hn hs base
  obtain ⟨r', hr', hrad'⟩ := radius_eq ht' hn hs' base
  rw [closeness_eq_of_perm h, hr'] at hr
  cases Option.some.inj hr
  obtain ⟨g, hpres, hgap, hdep⟩ :=
    depth_eq ht hs base hrad (lt_of_mem_closeness (List.getElem?_mem hr'))
  obtain ⟨g', hpres', hgap', hdep'⟩ :=
    depth_eq ht' hs' base hrad' (lt_of_mem_closeness (List.getElem?_mem hr'))
  have transfer : ∀ po, (∃ v ∈ vals t, address v ≠ base ∧ cpl (address v).bits base.bits = po) ↔
      ∃ v ∈ vals t', address v ≠ base ∧ cpl (address v).bits base.bits = po := fun po =>
    exists_other_congr h fun x => cpl x.bits base.bits = po
  have hg : g = g' := by
    rcases lt_trichotomy g g' with hlt | heq | hgt
    · obtain ⟨v, hv, hne, hq⟩ := (transfer g).2 (hpres' g hlt)
      exact absurd hq (hgap v hv hne)
    · exact heq
    · obtain ⟨v, hv, hne, hq⟩ := (transfer g').1 (hpres g' hgt)
      exact absurd hq (hgap' v hv hne)
  rw [hdep, hdep', hg]

/-- A valid pot of `neighbourhoodSize + 1` values, `base` among them, has depth 0 from `base`:
the radius is the order of the farthest other value, and when that is not 0 nothing lies at
order 0. -/
theorem depthForPot_eq_zero_of_size {t : Pot Entry} (ht : Valid t) {neighbourhoodSize : Int}
    (hn : 1 ≤ neighbourhoodSize) {base : Key 256} (hbase : base ∈ (vals t).map address)
    (hs : t.size = neighbourhoodSize + 1) : depthForPot (some t) neighbourhoodSize base = 0 := by
  obtain ⟨r, hr, hrad⟩ := radius_eq ht hn (by omega) base
  obtain ⟨g, hpres, -, hdep⟩ :=
    depth_eq ht (by omega) base hrad (lt_of_mem_closeness (List.getElem?_mem hr))
  have hlen : (closeness t base).length = (neighbourhoodSize - 1).toNat + 1 := by
    have h₁ := (closeness_perm t base).length_eq
    have h₂ : (othersOf t base).length = (vals t).length - 1 := by
      rw [← List.length_map (vals t) address, ← List.length_erase_of_mem hbase,
        ht.nodup.erase_eq_filter, othersOf]
      congr 1
      exact List.filter_congr fun x _ => by simp [bne]; rfl
    have h₃ := ht.size_eq_length
    rw [List.length_map] at h₁
    omega
  -- every other value lies at the radius or nearer
  have hle : ∀ q ∈ closeness t base, r ≤ q := fun q hq => by
    obtain ⟨i, hi, rfl⟩ := List.mem_iff_getElem.1 hq
    obtain ⟨hlast, rfl⟩ := List.getElem?_eq_some_iff.1 hr
    rcases Nat.lt_or_ge i (neighbourhoodSize - 1).toNat with hlt | hge
    · exact List.pairwise_iff_getElem.1 (closeness_sorted t base) _ _ _ _ hlt
    · have : i = (neighbourhoodSize - 1).toNat := by omega
      subst this
      exact le_rfl
  rw [hdep]
  rcases Nat.eq_zero_or_pos g with rfl | hg
  · simp
  · obtain ⟨v, hv, hne, hq⟩ := hpres 0 hg
    obtain ⟨x, hx, hx0⟩ :=
      (exists_other_iff (P := fun x => cpl x.bits base.bits = 0)).1 ⟨v, hv, hne, hq⟩
    have := hle 0 ((closeness_perm t base).mem_iff.2 (List.mem_map.2 ⟨x, hx, hx0⟩))
    omega

/-- A pot that does not hold `base` has no address to leave out. -/
theorem othersOf_of_not_mem {c : Pot Entry} {base : Key 256}
    (hnot : base ∉ (vals c).map address) : othersOf c base = (vals c).map address :=
  List.filter_eq_self.2 fun x hx => by
    simp only [decide_eq_true_eq]
    rintro rfl
    exact hnot hx

/-- A pot that holds `base` and the addresses of `c`, each once, has those of `c` as its other
addresses. -/
theorem othersOf_perm {c np : Pot Entry} {base : Key 256}
    (hnd : ((vals np).map address).Nodup)
    (h : ((vals np).map address).Perm (base :: (vals c).map address)) :
    (othersOf np base).Perm ((vals c).map address) := by
  have hnot : base ∉ (vals c).map address := (List.nodup_cons.1 (h.nodup_iff.1 hnd)).1
  have := h.filter fun x => decide (x ≠ base)
  rw [List.filter_cons_of_neg (by simp)] at this
  rwa [← othersOf_of_not_mem hnot]

/-- The depth of the table from a node is that of any valid pot that holds exactly the other
nodes. -/
theorem depthForPot_peerTable {c np : Pot Entry} (hc : Valid c) (hnp : Valid np)
    {neighbourhoodSize : Int} (hn : 1 ≤ neighbourhoodSize) {base : Key 256}
    (h : ((vals np).map address).Perm (base :: (vals c).map address)) :
    depthForPot (some c) neighbourhoodSize base = depthForPot (some np) neighbourhoodSize base := by
  have hnot : base ∉ (vals c).map address := (List.nodup_cons.1 (h.nodup_iff.1 hnp.nodup)).1
  have hsize : np.size = c.size + 1 := by
    rw [hnp.size_eq_length, hc.size_eq_length, ← List.length_map (vals np) address, h.length_eq,
      List.length_cons, List.length_map]
    push_cast
    rfl
  have hothers : (othersOf c base).Perm (othersOf np base) := by
    rw [othersOf_of_not_mem hnot]
    exact (othersOf_perm hnp.nodup h).symm
  rcases lt_trichotomy c.size neighbourhoodSize with hlt | heq | hgt
  · simp only [depthForPot, potSize, if_pos hlt.le, if_pos (show np.size ≤ neighbourhoodSize by omega)]
  · rw [depthForPot_eq_zero_of_size hnp hn (h.symm.subset (.head _)) (by omega)]
    simp only [depthForPot, potSize, if_pos heq.le]
  · exact depthForPot_eq_of_perm hc hnp hn hothers hgt (by omega)

/-- The `PeerPot` of a node in a valid table: its neighbours are the other values at the table's
depth from the node or deeper, and below that depth each order counts the other values
there. -/
theorem peerPotFor_spec {np : Pot Entry} (hv : Valid np) (neighbourhoodSize : Int)
    (a : Key 256) :
    (∀ x, x ∈ (peerPotFor np neighbourhoodSize a).nnSet ↔
      x ∈ othersOf np a ∧ depthForPot (some np) neighbourhoodSize a ≤ cpl x.bits a.bits) ∧
    (peerPotFor np neighbourhoodSize a).peersPerBin.length =
      (depthForPot (some np) neighbourhoodSize a).toNat ∧
    ∀ po < (depthForPot (some np) neighbourhoodSize a).toNat,
      (peerPotFor np neighbourhoodSize a).peersPerBin.getD po 0 =
        ((othersOf np a).countP fun x => cpl x.bits a.bits = po : Nat) := by
  obtain ⟨L, hperm, hcpl, -, hfeed⟩ := eachNeighbour_valid hv a
  obtain ⟨hnn, hbins⟩ := feed_peerPotConsumer (depthForPot (some np) neighbourhoodSize a) L
    ([], List.replicate (depthForPot (some np) neighbourhoodSize a).toNat 0)
  have hself : ∀ p ∈ L, p.2 ≠ 256 ↔ address p.1 ≠ a := fun p hp => by
    rw [hcpl p hp, Ne, Key.cpl_eq_iff]
  simp only [peerPotFor, hfeed, hnn, List.nil_append]
  refine ⟨fun x => ?_, ?_, fun po hpo => ?_⟩
  · simp only [othersOf, List.mem_map, List.mem_filter, decide_eq_true_eq]
    constructor
    · rintro ⟨p, ⟨hp, h256, hd⟩, rfl⟩
      refine ⟨⟨⟨p.1, hperm.subset (List.mem_map_of_mem _ hp), rfl⟩, (hself p hp).1 h256⟩, ?_⟩
      rwa [← hcpl p hp]
    · rintro ⟨⟨⟨v, hv', rfl⟩, hne⟩, hd⟩
      obtain ⟨p, hp, rfl⟩ := List.mem_map.1 (hperm.symm.subset hv')
      exact ⟨p, ⟨hp, (hself p hp).2 hne, by rwa [hcpl p hp]⟩, rfl⟩
  · refine feed_inv (P := fun s : List (Key 256) × List Int =>
        s.2.length = (depthForPot (some np) neighbourhoodSize a).toNat)
      (fun p _ s hs => ?_) (List.length_replicate _ _)
    unfold peerPotConsumer
    split_ifs <;> simpa using hs
  · have hd : (po : Int) < depthForPot (some np) neighbourhoodSize a := by omega
    rw [List.getD_eq_getElem?_getD, hbins po, List.getElem?_replicate, if_pos hpo, Option.map_some',
      Option.getD_some, Int.zero_add]
    congr 1
    calc (L.countP fun p => p.2 = po ∧ p.2 ≠ 256 ∧ (p.2 : Int) <
            depthForPot (some np) neighbourhoodSize a)
        = L.countP fun p => address p.1 ≠ a ∧ cpl (address p.1).bits a.bits = po :=
          List.countP_congr fun p hp => by
            simp only [decide_eq_true_eq, ← hself p hp, ← hcpl p hp]
            constructor
            · rintro ⟨rfl, h256, -⟩
              exact ⟨h256, rfl⟩
            · rintro ⟨h256, rfl⟩
              exact ⟨rfl, h256, hd⟩
      _ = (vals np).countP fun v => address v ≠ a ∧ cpl (address v).bits a.bits = po := by
          rw [← hperm.countP_eq, List.countP_map]
          rfl
      _ = (othersOf np a).countP fun x => cpl x.bits a.bits = po := by
          rw [othersOf, List.countP_filter, List.countP_map]
          exact List.countP_congr fun v _ => by simp [and_comm]

/-- The depth of a valid pot is not negative. -/
theorem depthForPot_nonneg {t : Pot Entry} (ht : Valid t) (neighbourhoodSize : Int)
    (base : Key 256) : 0 ≤ depthForPot (some t) neighbourhoodSize base := by
  unfold depthForPot
  split
  · exact le_rfl
  · have hr : (((0 : Nat) : Int)) ≤ neighbourhoodRadiusForPot (some t) neighbourhoodSize base := by
      rcases radius_cases ht neighbourhoodSize base with h | ⟨v, -, h⟩ <;> rw [h] <;> omega
    obtain ⟨d, hd, -⟩ := feed_depthConsumer _ (binsOf base.bits pof 0 t) 0
      (groups_of_valid base 0 ht).sorted (fun _ _ => Nat.zero_le _) hr
    simp only [EachBin, if_true, eachBin_eq]
    rw [Nat.cast_zero] at hd
    rw [hd]
    exact Int.natCast_nonneg d

/-- A valid pot holding a value other than `base` holds one at its depth from `base` or
deeper. -/
theorem exists_near {t : Pot Entry} (ht : Valid t) {neighbourhoodSize : Int}
    (hn : 1 ≤ neighbourhoodSize) {base : Key 256} (hother : othersOf t base ≠ []) :
    ∃ x ∈ othersOf t base, depthForPot (some t) neighbourhoodSize base ≤ cpl x.bits base.bits := by
  by_cases hs : t.size ≤ neighbourhoodSize
  · obtain ⟨x, hx⟩ := List.exists_mem_of_ne_nil _ hother
    refine ⟨x, hx, ?_⟩
    simp only [depthForPot, potSize, if_pos hs]
    exact Int.natCast_nonneg _
  · obtain ⟨r, hr, hrad⟩ := radius_eq ht hn (by omega) base
    obtain ⟨g, -, -, hdep⟩ :=
      depth_eq ht (by omega) base hrad (lt_of_mem_closeness (List.getElem?_mem hr))
    obtain ⟨x, hx, hxr⟩ :=
      List.mem_map.1 ((closeness_perm t base).subset (List.getElem?_mem hr))
    refine ⟨x, hx, ?_⟩
    rw [hdep, hxr]
    exact min_le_left _ _

/-- The addresses `nearAddrs` reads are the views of the values other than `base` at the depth or
deeper. -/
theorem mem_nearAddrs {view : Entry → Option (Key 256)} {t : Pot Entry} {base : Key 256}
    {depth : Int} {x : Key 256} :
    x ∈ nearAddrs view t base depth ↔
      ∃ e ∈ vals t, address e ≠ base ∧ depth ≤ cpl (address e).bits base.bits ∧ view e = some x := by
  simp only [nearAddrs, List.mem_filterMap]
  constructor
  · rintro ⟨e, he, hx⟩
    split at hx
    · rename_i h
      exact ⟨e, he, h.1, h.2, hx⟩
    · cases hx
  · rintro ⟨e, he, hne, hd, hx⟩
    exact ⟨e, he, by rw [if_pos ⟨hne, hd⟩, hx]⟩

/-- Looking an element of a list up among the pairs it maps to finds its image. -/
theorem lookup_map_pair {β : Type} (f : Key 256 → β) :
    ∀ {l : List (Key 256)} {x : Key 256}, x ∈ l → (l.map fun a => (a, f a)).lookup x = some (f x)
  | b :: l, x, hx => by
    by_cases h : x = b
    · subst h
      simp [List.lookup]
    · have hb : (x == b) = false := beq_false_of_ne h
      simp only [List.map_cons, List.lookup, hb]
      exact lookup_map_pair f (List.mem_of_ne_of_mem h hx)

/-- `NewPeerPotMap` has, for each address of the network, the `PeerPot` of the network's table from
that address. -/
theorem lookup_NewPeerPotMap (neighbourhoodSize : Int) {addrs : List (Key 256)} {a : Key 256}
    (ha : a ∈ addrs) :
    (NewPeerPotMap neighbourhoodSize addrs).lookup a =
      some (peerPotFor (peerTable addrs) neighbourhoodSize a) :=
  lookup_map_pair _ ha

/-! ## The health of a node connected to all -/

/-- The health check accepts a node connected to every other node of the network: when the
conns hold exactly the other nodes, each with its peer at its own address, and the addrs know
every other node, the report `healthOf` the pots against the node's `PeerPot` from
`NewPeerPotMap` is `Healthy`, whatever the hive text, provided the network has another node and
`neighbourhoodSize ≥ 1`. -/
theorem healthy_of_connected_pots {k : Kademlia} {c a : Pot Entry} {addrs : List (Key 256)}
    (hcv : Valid c)
    (hpeers : ∀ e ∈ vals c, ∃ p, e.conn = some p ∧ p.bzzAddr.oAddr = address e)
    (hconn : ∀ x, x ∈ (vals c).map address ↔ x ∈ addrs ∧ x ≠ k.base)
    (hknown : ∀ x ∈ addrs, x ≠ k.base → x ∈ (vals a).map address)
    (hbase : k.base ∈ addrs) (hother : ∃ x ∈ addrs, x ≠ k.base)
    (hn : 1 ≤ k.params.neighbourhoodSize) :
    ∃ pp, (NewPeerPotMap k.params.neighbourhoodSize addrs).lookup k.base = some pp ∧
      ∀ hive, (k.healthOf c a pp hive).Healthy = true := by
  obtain ⟨hnpv, -⟩ := peerTable_lookup addrs
  have hnot : k.base ∉ (vals c).map address := fun h => ((hconn _).1 h).2 rfl
  have hperm : ((vals (peerTable addrs)).map address).Perm (k.base :: (vals c).map address) :=
    (List.perm_ext_iff_of_nodup hnpv.nodup (List.nodup_cons.2 ⟨hnot, hcv.nodup⟩)).2 fun x => by
      rw [mem_peerTable, List.mem_cons, hconn]
      by_cases hx : x = k.base <;> simp [hx, hbase]
  have hothers := othersOf_perm hnpv.nodup hperm
  have hdepth := depthForPot_peerTable hcv hnpv hn hperm
  obtain ⟨hnn, hlen, hbins⟩ := peerPotFor_spec hnpv k.params.neighbourhoodSize k.base
  -- each expected neighbour is another node at the depth or deeper
  have hnear : ∀ x ∈ (peerPotFor (peerTable addrs) k.params.neighbourhoodSize k.base).nnSet,
      ∃ e ∈ vals c, address e = x ∧
        depthForPot (some c) k.params.neighbourhoodSize k.base ≤ cpl x.bits k.base.bits := by
    intro x hx
    obtain ⟨hxo, hd⟩ := (hnn x).1 hx
    obtain ⟨e, he, rfl⟩ := List.mem_map.1 (hothers.subset hxo)
    exact ⟨e, he, rfl, hdepth ▸ hd⟩
  refine ⟨_, lookup_NewPeerPotMap _ hbase, fun hive => ?_⟩
  rw [healthOf_Healthy_iff]
  refine ⟨fun x hx => ?_, ?_, ?_, fun po hpo => ?_⟩
  · obtain ⟨e, he, rfl, hd⟩ := hnear x hx
    have hne : address e ≠ k.base := fun h => hnot (h ▸ List.mem_map_of_mem _ he)
    obtain ⟨e', he', hee'⟩ := List.mem_map.1 (hknown _ ((hconn _).1 (List.mem_map_of_mem _ he)).1 hne)
    obtain ⟨p, hp, hpa⟩ := hpeers e he
    exact ⟨mem_nearAddrs.2 ⟨e', he', hee' ▸ hne, hee' ▸ hd, by rw [← hee']; rfl⟩,
      mem_nearAddrs.2 ⟨e, he, hne, hd, by rw [hp, Option.map_some', hpa]⟩⟩
  · obtain ⟨x₀, hx₀, hne₀⟩ := hother
    obtain ⟨x, hx, hd⟩ := exists_near hnpv hn (List.ne_nil_of_mem (List.mem_filter.2
      ⟨(mem_peerTable addrs x₀).2 hx₀, by simpa using hne₀⟩))
    have hxnn := (hnn x).2 ⟨hx, hd⟩
    obtain ⟨e, he, rfl, hd'⟩ := hnear _ hxnn
    have hne : address e ≠ k.base := fun h => hnot (h ▸ List.mem_map_of_mem _ he)
    obtain ⟨e', he', hee'⟩ := List.mem_map.1 (hknown _ ((hconn _).1 (List.mem_map_of_mem _ he)).1 hne)
    exact ⟨_, hxnn, mem_nearAddrs.2 ⟨e', he', hee' ▸ hne, hee' ▸ hd', by rw [← hee']; rfl⟩⟩
  · rw [hlen, hdepth, Int.toNat_of_nonneg (depthForPot_nonneg hnpv _ _)]
  · rw [hlen] at hpo
    simp only [binSaturated, decide_eq_true_eq]
    right
    rw [hbins po hpo, (hothers.countP_eq _), List.countP_map, countAt,
      ← List.countP_eq_length_filter]
    rfl

/-! ## Connections over runs -/

/-- Every connection the default conns hold is to a peer at its entry's key. -/
def Home (idx : CapabilityIndex) : Prop :=
  ∀ t, idx.conns = some t → ∀ a ce p, lookup t a = some ce → ce.conn = some p → p.bzzAddr.oAddr = a

section Home

variable (isSameAs : Capability → Capability → Bool)

/-- The loop of `Register` leaves the default conns as they are. -/
theorem registerLoop_conns {now : Int} :
    ∀ {peers : List BzzAddr} {k : Kademlia} {r : Kademlia × Option String},
      registerLoop isSameAs k now peers = .ok r → r.1.defaultIndex.conns = k.defaultIndex.conns
  | [], k, r, h => by
    simp only [registerLoop] at h
    cases h
    rfl
  | p :: peers, k, r, h => by
    simp only [registerLoop] at h
    split at h
    · cases h
      rfl
    · obtain ⟨res, -, h⟩ := bind_eq_ok h
      obtain ⟨k₂, h₂, hrec⟩ := bind_eq_ok h
      rw [registerLoop_conns hrec, (addToCapabilityIndex_ok h₂).2.1]
      rfl

/-- `On` keeps every connection of the default conns at its entry's key. -/
theorem On_home {k : Kademlia} {p : Peer} {now : Int} {res : Kademlia × UInt8 × Bool}
    (hk : FlagsInv k.defaultIndex) (hh : Home k.defaultIndex)
    (h : k.On isSameAs p now = .ok res) : Home res.1.defaultIndex := by
  obtain ⟨t, u, hc, ha, hf⟩ := hk
  unfold Kademlia.On at h
  obtain ⟨⟨r, ins⟩, h1, h⟩ := bind_eq_ok h
  obtain ⟨k2, h2, h⟩ := bind_eq_ok h
  obtain ⟨k3, h3, h⟩ := bind_eq_ok h
  cases h
  obtain ⟨r0, po, hr0, Rc⟩ :=
    swapPtr_onCallback hf.conns_valid p.bzzAddr.oAddr (newEntryFromPeer p now) rfl
  rw [hc, hr0] at h1
  cases h1
  obtain ⟨-, hd2, -, -⟩ := addToCapabilityIndex_ok h2
  have hc3 : k3.defaultIndex.conns = r0 := by
    split at h3
    · obtain ⟨u', rfl, -⟩ := onAddrs_ok (by rw [hd2]; exact ha) hf.addrs_valid h3
      simp [hd2]
    · cases h3
      simp [hd2]
  intro t' ht' a ce q hce hq
  rw [onFinish_defaultIndex, hc3] at ht'
  rw [Rc.lookup_eq t' ht' a] at hce
  split at hce
  · rename_i hkey
    split at hce
    · cases hce
      cases hq
      exact hkey.symm
    · exact hh t hc a ce q (hkey ▸ hce) hq
  · exact hh t hc a ce q hce hq

/-- `Off` keeps every connection of the default conns at its entry's key. -/
theorem Off_home {k k' : Kademlia} {p : Peer} {now : Int} (hk : FlagsInv k.defaultIndex)
    (hh : Home k.defaultIndex) (h : k.Off p now = .ok k') : Home k'.defaultIndex := by
  obtain ⟨t, u, hc, ha, hf⟩ := hk
  unfold Kademlia.Off at h
  obtain ⟨res₁, -, h⟩ := bind_eq_ok h
  obtain ⟨res₂, h2, h⟩ := bind_eq_ok h
  obtain ⟨k₃, h3, h⟩ := bind_eq_ok h
  cases h
  simp only [setAddrs_defaultIndex, hc] at h2
  obtain ⟨rc, po, hrc, Rc⟩ :=
    swapPtr_pure hf.conns_valid p.bzzAddr.oAddr (fun _ => none) (by simp)
  rw [hrc] at h2
  cases h2
  obtain ⟨-, hd3, -, -⟩ := removeFromCapabilityIndex_peer_ok h3
  intro t' ht' a ce q hce hq
  simp only [setNeighbourhoodDepth_defaultIndex, hd3, setConns_defaultIndex] at ht'
  rw [Rc.lookup_eq t' ht' a] at hce
  split at hce
  · cases hce
  · exact hh t hc a ce q hce hq

/-- Every call keeps every connection of the default conns at its entry's key. -/
theorem call_home {k k' : Kademlia} {c : Call} (hk : FlagsInv k.defaultIndex)
    (hh : Home k.defaultIndex) (h : k.call isSameAs c = .ok k') : Home k'.defaultIndex := by
  rcases c with ⟨s, cap⟩ | ⟨peers, now⟩ | ⟨p, now⟩ | ⟨p, now⟩
  · cases h
    rw [(RegisterCapabilityIndex_fst s cap).1]
    exact hh
  · obtain ⟨r, hr, h⟩ := bind_eq_ok h
    cases h
    intro t ht
    exact hh t (ht ▸ (registerLoop_conns isSameAs hr).symm)
  · obtain ⟨r, hr, h⟩ := bind_eq_ok h
    cases h
    exact On_home isSameAs hk hh hr
  · exact Off_home hk hh h

/-- Every run of calls that keep live addresses live keeps every connection of the default conns at
its entry's key. -/
theorem home_run {k₀ k : Kademlia} {calls : List Call} (h : Run isSameAs keepsLive k₀ calls k)
    (hk₀ : FlagsInv k₀.defaultIndex) (hh₀ : Home k₀.defaultIndex) : Home k.defaultIndex := by
  induction h with
  | nil => exact hh₀
  | snoc hrun _ hcall ih => exact call_home isSameAs (flags_run isSameAs hrun hk₀) ih hcall

end Home

/-- A new table has no connection. -/
theorem home_new (addr : Key 256) (params : KadParams) (full light : Capability) :
    Home (NewKademlia addr params full light).defaultIndex := by
  rintro t ht a ce p hce
  cases ht
  simp [lookup, empty, newPot] at hce

/-- In every state reached from `NewKademlia` by calls that keep live addresses live, with a
positive `MaxProxDisplay`, a node connected to exactly the other nodes of a network is healthy:
`GetHealthInfo` against its `PeerPot` from `NewPeerPotMap` reports `Healthy`, when the network
has another node and `neighbourhoodSize ≥ 1`. -/
theorem healthy_of_connected_to_all (isSameAs : Capability → Capability → Bool)
    {addr : Key 256} {params : KadParams} {full light : Capability} {calls : List Call}
    {k : Kademlia} (h : Run isSameAs keepsLive (NewKademlia addr params full light) calls k)
    {addrs : List (Key 256)} (hconn : ∀ x, k.connected x = true ↔ x ∈ addrs ∧ x ≠ k.base)
    (hbase : k.base ∈ addrs) (hother : ∃ x ∈ addrs, x ≠ k.base)
    (hn : 1 ≤ k.params.neighbourhoodSize) (hm : 0 < k.params.maxProxDisplay)
    (gitCommit now : String) :
    ∃ pp, (NewPeerPotMap k.params.neighbourhoodSize addrs).lookup k.base = some pp ∧
      ∃ h, k.GetHealthInfo gitCommit now pp = .ok h ∧ h.Healthy = true := by
  obtain ⟨c, a, hc, ha, hf⟩ := flags_run isSameAs h (flags_new addr params full light)
  have hh := home_run isSameAs h (flags_new addr params full light) (home_new addr params full light)
  have hmem : ∀ x, x ∈ (vals c).map address ↔ (lookup c x).isSome := fun x => by
    simp [lookup, List.find?_isSome]
  have hpeers : ∀ e ∈ vals c, ∃ p, e.conn = some p ∧ p.bzzAddr.oAddr = address e := fun e he => by
    have hl := lookup_of_mem hf.conns_valid he
    obtain ⟨p, hp⟩ := Option.isSome_iff_exists.1 (hf.live _ e hl)
    exact ⟨p, hp, hh c hc _ e p hl hp⟩
  have hknown : ∀ x ∈ addrs, x ≠ k.base → x ∈ (vals a).map address := fun x hx hne => by
    obtain ⟨ce, hce⟩ := Option.isSome_iff_exists.1
      ((connected_of_conns hc x).symm.trans ((hconn x).2 ⟨hx, hne⟩))
    obtain ⟨e, he, -⟩ := hf.addrs_of_live hce
    exact List.mem_map.2 ⟨e, List.mem_of_find?_eq_some he, by simpa using List.find?_some he⟩
  obtain ⟨pp, hpp, hhealthy⟩ := healthy_of_connected_pots hf.conns_valid hpeers
    (fun x => by rw [hmem, ← connected_of_conns hc, hconn]) hknown hbase hother hn
  obtain ⟨m, hmeq⟩ := Int.eq_ofNat_of_zero_le hm.le
  obtain ⟨hive, hs⟩ : ∃ hive, k.string gitCommit now = .ok hive :=
    ⟨_, string_pos gitCommit now hc ha hf.conns_valid hf.addrs_valid hmeq (by omega)⟩
  refine ⟨pp, hpp, k.healthOf c a pp hive, ?_, hhealthy hive⟩
  rw [GetHealthInfo_eq hc ha hf.conns_valid hf.addrs_valid
    (fun e he => hf.live _ e (lookup_of_mem hf.conns_valid he)) gitCommit now pp, hs]
  rfl

/-- A new table that connects to the one other node of a network of two is healthy. -/
theorem healthy_of_connected_to_all_on :
    ∃ k, Run (fun a b => a == b) keepsLive (NewKademlia zeroKey NewKadParams ⟨0, [true]⟩ ⟨1, []⟩)
        [.on ⟨0, ⟨farKey, [1], [⟨0, [true]⟩]⟩⟩ 0] k ∧
      ∃ pp, (NewPeerPotMap k.params.neighbourhoodSize [zeroKey, farKey]).lookup k.base = some pp ∧
        ∃ h, k.GetHealthInfo "" "" pp = .ok h ∧ h.Healthy = true := by
  let same : Capability → Capability → Bool := fun a b => a == b
  let k₀ := NewKademlia zeroKey NewKadParams ⟨0, [true]⟩ ⟨1, []⟩
  let p : Peer := ⟨0, ⟨farKey, [1], [⟨0, [true]⟩]⟩⟩
  let k₁ := (k₀.call same (.on p 0)).toOption.getD k₀
  have hrun : Run same keepsLive k₀ [.on p 0] k₁ := Run.snoc (Run.nil k₀) trivial rfl
  have hc : k₁.defaultIndex.conns = some ⟨some (newEntryFromPeer p 0), [], 1, 0⟩ := rfl
  have hb : k₁.base = zeroKey := rfl
  have hne : farKey ≠ zeroKey := by decide
  refine ⟨k₁, hrun, healthy_of_connected_to_all same hrun (fun x => ?_) (by simp [hb])
    ⟨farKey, by simp, by rw [hb]; exact hne⟩ (by decide) (by decide) "" ""⟩
  rw [connected_of_conns hc, hb]
  by_cases hx : x = zeroKey
  · simp [lookup, vals, valsOf, newEntryFromPeer, p, hx, hne]
  · simp [lookup, vals, valsOf, newEntryFromPeer, p, hx]
    exact eq_comm

end Swarm.Network
