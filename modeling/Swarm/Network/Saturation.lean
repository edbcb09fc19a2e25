import Swarm.Network.Suggest

/-!
# The saturation depth

`saturation` counts the full bins of the default conns at orders `0, 1, ...` below the
neighbourhood radius; the first phase of `SuggestPeer` records the first order it finds
unsaturated: an empty order it skips, or a bin below its expected size, or any bin from the
radius on. Over the bins `EachBin` presents, which group the conns by their order to the base
(`binsOf_groups`), both come to the least of the radius and the first order whose bin is empty or
holds fewer peers than `expectedMinBinSize` asks (`saturation_eq`).
-/

namespace Swarm.Network

open Pot Kademlia

/-! ## The radius -/

/-- The neighbourhood radius of a valid pot is 0 or the order of one of its values to the
pivot. -/
theorem radius_cases {t : Pot Entry} (ht : Valid t) (neighbourhoodSize : Int) (base : Key 256) :
    neighbourhoodRadiusForPot (some t) neighbourhoodSize base = 0 ∨
      ∃ v ∈ vals t, neighbourhoodRadiusForPot (some t) neighbourhoodSize base =
        cpl (address v).bits base.bits := by
  unfold neighbourhoodRadiusForPot
  split
  · exact .inl rfl
  · rcases ht with rfl | ⟨hpo, hwf, -⟩
    · left
      simp [eachNeighbour, empty, newPot]
    · dsimp only
      rw [eachNeighbour_eq _ _ _ hwf]
      have hsound := neighboursOf_sound base hwf (fun _ _ => by rw [hpo]; exact Nat.zero_le _)
      refine feed_inv (P := fun s : Int × Int => s.2 = 0 ∨ ∃ v ∈ vals t,
        s.2 = cpl (address v).bits base.bits) (fun pr hpr s hs => ?_) (.inl rfl)
      obtain ⟨hv, hq⟩ := hsound pr.1 pr.2 hpr
      simp only [radiusConsumer]
      split
      · exact hs
      · split
        · exact .inr ⟨pr.1, hv, by rw [hq]⟩
        · exact hs

/-! ## The folds over the bins -/

section Fold

variable (k : Kademlia) (R : Int) (count : Nat → Int)

/-- Order `q` is full: its bin is not empty and holds the peers `expectedMinBinSize` asks. -/
def Full (q : Nat) : Prop := 0 < count q ∧ k.expectedMinBinSize q ≤ count q

/-- The bins `L` that remain from order `i` on, with the orders below `i` full and below the
radius `R`, which is 0 or the order of a remaining bin. -/
structure Suffix (L : List (Bin Entry)) (i : Nat) : Prop where
  sorted : (L.map Bin.proximityOrder).Pairwise (· < ·)
  ge : ∀ B ∈ L, i ≤ B.proximityOrder
  size_eq : ∀ B ∈ L, B.size = count B.proximityOrder ∧ 0 < count B.proximityOrder
  gap : ∀ q, i ≤ q → (∀ B ∈ L, B.proximityOrder ≠ q) → count q = 0
  full : ∀ q < i, Full k count q
  le_radius : (i : Int) ≤ R
  radius : (R = 0 ∧ i = 0) ∨ ∃ B ∈ L, (B.proximityOrder : Int) = R

variable {k R count} {m : Nat} (hm : ¬ Full k count m) (hlt : ∀ q < m, Full k count q)

namespace Suffix

variable {L : List (Bin Entry)} {B : Bin Entry} {i : Nat}

include hm in
/-- The orders below the floor of a suffix are full, so the floor is at most the first order that is
not. -/
theorem le_least (h : Suffix k R count L i) : i ≤ m :=
  Nat.le_of_not_lt fun hmi => hm (h.full m hmi)

include hm hlt in
/-- The first order that is not full is the least one. -/
theorem least_eq (h : Suffix k R count L i) (hi : ¬ Full k count i) : m = i :=
  le_antisymm (Nat.le_of_not_lt fun him => hi (hlt i him)) (h.le_least hm)

/-- An order skipped before the first bin is empty. -/
theorem count_skipped (h : Suffix k R count (B :: L) i) (hi : i < B.proximityOrder) :
    count i = 0 := by
  refine h.gap i le_rfl fun B' hB' => ?_
  rcases List.mem_cons.1 hB' with rfl | hB'
  · exact hi.ne'
  · have := List.rel_of_pairwise_cons (List.map_cons _ _ _ ▸ h.sorted) (List.mem_map_of_mem _ hB')
    omega

/-- A radius beyond `i` and not beyond the first bin is that bin's order. -/
theorem radius_head (h : Suffix k R count (B :: L) i) (hR : R ≤ B.proximityOrder)
    (hi : (i : Int) < R) : (B.proximityOrder : Int) = R := by
  rcases h.radius with ⟨rfl, rfl⟩ | ⟨B', hB', hB'R⟩
  · exact absurd hi (lt_irrefl _)
  · rcases List.mem_cons.1 hB' with rfl | hB'
    · exact hB'R
    · have := List.rel_of_pairwise_cons (List.map_cons _ _ _ ▸ h.sorted)
        (List.mem_map_of_mem _ hB')
      omega

/-- Past a full first bin at order `i` below the radius, the rest starts at `i + 1`. -/
theorem tail (h : Suffix k R count (B :: L) i) (hpo : B.proximityOrder = i)
    (hfull : Full k count i) (hR : (i : Int) < R) : Suffix k R count L (i + 1) where
  sorted := (List.pairwise_cons.1 (List.map_cons _ _ _ ▸ h.sorted)).2
  ge B' hB' := by
    have := List.rel_of_pairwise_cons (List.map_cons _ _ _ ▸ h.sorted) (List.mem_map_of_mem _ hB')
    omega
  size_eq B' hB' := h.size_eq B' (.tail _ hB')
  gap q hq hgap := h.gap q (by omega) fun B' hB' => by
    rcases List.mem_cons.1 hB' with rfl | hB'
    · omega
    · exact hgap B' hB'
  full q hq := by
    rcases Nat.lt_succ_iff_lt_or_eq.1 hq with hq | rfl
    · exact h.full q hq
    · exact hfull
  le_radius := by push_cast; omega
  radius := by
    rcases h.radius with ⟨rfl, -⟩ | ⟨B', hB', hB'R⟩
    · omega
    · rcases List.mem_cons.1 hB' with rfl | hB'
      · omega
      · exact .inr ⟨B', hB', hB'R⟩

end Suffix

/-- The saturation consumer on a bin stops at the radius, goes on past a full bin at the next order,
and stops otherwise. -/
theorem feed_saturationConsumer_cons (B : Bin Entry) (L : List (Bin Entry)) (prev : Int) :
    feed (k.saturationConsumer R) (B :: L) prev =
      if R ≤ B.proximityOrder then (prev + 1, false)
      else if prev + 1 = B.proximityOrder ∧ k.expectedMinBinSize B.proximityOrder ≤ B.size then
        feed (k.saturationConsumer R) L (prev + 1)
      else (prev + 1, false) := by
  simp only [feed_cons, saturationConsumer, ge_iff_le]
  split_ifs <;> simp_all

include hm hlt in
/-- `saturation`'s fold over the bins from order `i` on, having counted the `i` full bins below,
comes to the least of the radius and the first order that is not full. -/
theorem saturation_fold :
    ∀ {L : List (Bin Entry)} {i : Nat}, Suffix k R count L i →
      (let prev := (feed (k.saturationConsumer R) L ((i : Int) - 1)).1
       if prev < 0 then 0 else prev) = min R m
  | [], i, h => by
    rcases h.radius with ⟨rfl, rfl⟩ | ⟨_, hB, -⟩
    · simp only [feed_nil]
      rw [if_pos (by omega), min_eq_left (by omega)]
    · cases hB
  | B :: L, i, h => by
    have him := h.le_least hm
    have hB := h.ge B (.head _)
    have hs := h.size_eq B (.head _)
    rw [feed_saturationConsumer_cons, sub_add_cancel]
    by_cases hR : R ≤ B.proximityOrder
    · rw [if_pos hR]
      dsimp only
      rcases Int.le_iff_lt_or_eq.1 h.le_radius with hi | rfl
      · have hmi := h.least_eq hm hlt fun hf => by
          have := h.count_skipped (by have := h.radius_head hR hi; omega)
          exact absurd hf.1 (by omega)
        subst hmi
        rw [if_neg (by omega), min_eq_right (by omega)]
      · rw [if_neg (by omega), min_eq_left (by omega)]
    · rw [if_neg hR]
      by_cases hc : (i : Int) = B.proximityOrder ∧
          k.expectedMinBinSize B.proximityOrder ≤ B.size
      · have hpo : B.proximityOrder = i := by omega
        have hfull : Full k count B.proximityOrder := ⟨hs.2, hs.1 ▸ hc.2⟩
        rw [if_pos hc]
        have := saturation_fold (h.tail hpo (hpo ▸ hfull) (by omega))
        push_cast at this
        simpa using this
      · rw [if_neg hc]
        dsimp only
        have hmi := h.least_eq hm hlt fun hf => by
          rcases Nat.lt_or_ge i B.proximityOrder with hlt' | hge
          · exact absurd hf.1 (by rw [h.count_skipped hlt']; omega)
          · have hpo : B.proximityOrder = i := by omega
            exact hc ⟨by rw [hpo], by rw [hs.1, hpo]; exact hf.2⟩
        subst hmi
        rw [if_neg (by omega), min_eq_right (by omega)]

/-! ### The first phase of `SuggestPeer` -/

/-- Skipping empty orders keeps `lastPO`, passes the depth when any order is skipped, and sets the
saturation depth, if unset, to the first order skipped. -/
theorem foldl_skipEmptyBin (l : List Nat) (s : Phase1) :
    (l.foldl skipEmptyBin s).lastPO = s.lastPO ∧
      (l.foldl skipEmptyBin s).pastDepth = (s.pastDepth || !l.isEmpty) ∧
      (l.foldl skipEmptyBin s).saturationDepth =
        if s.saturationDepth = -1 then (l.head?.map fun q : Nat => (q : Int)).getD (-1)
        else s.saturationDepth := by
  induction l generalizing s with
  | nil => simp only [List.foldl_nil, List.isEmpty_nil, Bool.not_true, Bool.or_false,
      List.head?_nil, Option.map_none', Option.getD_none, true_and]; split <;> simp_all
  | cons a l ih =>
    obtain ⟨h₁, h₂, h₃⟩ := ih (skipEmptyBin s a)
    refine ⟨h₁, by rw [List.foldl_cons, h₂]; simp [skipEmptyBin], ?_⟩
    rw [List.foldl_cons, h₃]
    by_cases hs : s.saturationDepth = -1 <;> simp [skipEmptyBin, hs]

/-- The orders from `a` below `b` are none exactly when `b` is not above `a`. -/
theorem range'_isEmpty (a b : Nat) : (List.range' a (b - a)).isEmpty = !decide (a < b) := by
  rcases Nat.lt_or_ge a b with h | h
  · obtain ⟨n, hn⟩ : ∃ n, b - a = n + 1 := ⟨b - a - 1, by omega⟩
    simp [hn, List.range', h]
  · simp [Nat.sub_eq_zero_of_le h, List.range', Nat.not_lt.2 h]

/-- The first of the orders from `a` below `b` is `a`, when `a` is below `b`. -/
theorem range'_head? (a b : Nat) :
    (List.range' a (b - a)).head? = if a < b then some a else none := by
  rcases Nat.lt_or_ge a b with h | h
  · obtain ⟨n, hn⟩ : ∃ n, b - a = n + 1 := ⟨b - a - 1, by omega⟩
    simp [hn, List.range', h]
  · simp [Nat.sub_eq_zero_of_le h, List.range', Nat.not_lt.2 h]

/-- The skip loop of `binConsumer` from `lastPO` up to the bin's order: it passes the depth when
it skips an order, and finds the depth at the first order it skips. -/
theorem foldl_skipEmptyBin_range' (a b : Nat) (s : Phase1) :
    ((List.range' a (b - a)).foldl skipEmptyBin s).pastDepth = (s.pastDepth || decide (a < b)) ∧
      ((List.range' a (b - a)).foldl skipEmptyBin s).saturationDepth =
        if s.saturationDepth = -1 ∧ a < b then (a : Int) else s.saturationDepth := by
  obtain ⟨-, hp, hd⟩ := foldl_skipEmptyBin (List.range' a (b - a)) s
  rw [range'_isEmpty, Bool.not_not] at hp
  rw [range'_head?] at hd
  refine ⟨hp, hd.trans ?_⟩
  by_cases h₁ : s.saturationDepth = -1 <;> by_cases h₂ : a < b <;> simp [h₁, h₂]

/-- One turn of `binConsumer`, over the state `s₂` its skip loop reaches: it goes on, moves
`lastPO` past the bin, passes the depth at the radius, and finds the depth at the bin unless the
bin is full and the depth not yet passed. -/
theorem binConsumer_spec (B : Bin Entry) (s : Phase1) :
    ∃ s₂ : Phase1, s₂.pastDepth = (s.pastDepth || decide (s.lastPO < B.proximityOrder)) ∧
      s₂.saturationDepth = (if s.saturationDepth = -1 ∧ s.lastPO < B.proximityOrder
        then (s.lastPO : Int) else s.saturationDepth) ∧
      (k.binConsumer R B s).2 = true ∧
      (k.binConsumer R B s).1.lastPO = B.proximityOrder + 1 ∧
      (k.binConsumer R B s).1.pastDepth = (s₂.pastDepth || decide (R ≤ B.proximityOrder)) ∧
      (k.binConsumer R B s).1.saturationDepth =
        if (s₂.pastDepth || decide (R ≤ B.proximityOrder)) = false ∧
            k.expectedMinBinSize B.proximityOrder ≤ B.size then s₂.saturationDepth
        else if s₂.saturationDepth = -1 then (B.proximityOrder : Int) else s₂.saturationDepth := by
  unfold binConsumer
  dsimp only
  set s₁ := if s.currentMaxBinSize < k.expectedMinBinSize B.proximityOrder then
    { s with currentMaxBinSize := k.expectedMinBinSize B.proximityOrder } else s with hs₁
  have h₁ : s₁.lastPO = s.lastPO ∧ s₁.pastDepth = s.pastDepth ∧
      s₁.saturationDepth = s.saturationDepth := by
    rw [hs₁]
    split <;> exact ⟨rfl, rfl, rfl⟩
  obtain ⟨hp, hd⟩ := foldl_skipEmptyBin_range' s₁.lastPO B.proximityOrder s₁
  generalize List.foldl skipEmptyBin s₁ (List.range' s₁.lastPO (B.proximityOrder - s₁.lastPO)) = s₂
    at hp hd ⊢
  rw [h₁.1, h₁.2.1] at hp
  rw [h₁.1, h₁.2.2] at hd
  refine ⟨s₂, hp, hd, ?_⟩
  cases (s₂.pastDepth || decide (R ≤ B.proximityOrder))
  · -- the bin's own size decides
    simp only [Bool.false_eq_true, false_and, if_false, true_and]
    by_cases h : k.expectedMinBinSize B.proximityOrder ≤ B.size
    · rw [if_neg (by omega), if_pos h]
      exact ⟨rfl, rfl, rfl, rfl⟩
    · rw [if_pos (by omega), if_neg h]
      exact ⟨rfl, rfl, rfl, rfl⟩
  · -- past the depth the size is forced below the expected one
    simp only [true_and, Bool.true_eq_false, false_and, if_false]
    rw [if_pos (by split_ifs <;> omega)]
    exact ⟨rfl, rfl, rfl, rfl⟩

/-- Once the saturation depth is found, `binConsumer` keeps it. -/
theorem binConsumer_keeps (B : Bin Entry) {s : Phase1} (hs : s.saturationDepth ≠ -1) :
    (k.binConsumer R B s).1.saturationDepth = s.saturationDepth := by
  obtain ⟨s₂, -, hd, -, -, -, h⟩ := binConsumer_spec (k := k) (R := R) B s
  rw [if_neg fun h' => hs h'.1] at hd
  rw [h, hd, if_neg hs, ite_self]

/-- Before the saturation depth is found, `binConsumer` finds it at a skipped empty order, or at
the bin when the depth is passed, the radius reached or the bin below its expected size. -/
theorem binConsumer_first (B : Bin Entry) {s : Phase1} (hs : s.saturationDepth = -1) :
    (k.binConsumer R B s).2 = true ∧
      (k.binConsumer R B s).1.lastPO = B.proximityOrder + 1 ∧
      (k.binConsumer R B s).1.pastDepth =
        (s.pastDepth || decide (s.lastPO < B.proximityOrder) || decide (R ≤ B.proximityOrder)) ∧
      (k.binConsumer R B s).1.saturationDepth =
        if s.lastPO < B.proximityOrder then (s.lastPO : Int)
        else if s.pastDepth ∨ R ≤ B.proximityOrder ∨
            B.size < k.expectedMinBinSize B.proximityOrder then (B.proximityOrder : Int)
        else -1 := by
  obtain ⟨s₂, hp, hd, hgo, hl, hpd, h⟩ := binConsumer_spec (k := k) (R := R) B s
  refine ⟨hgo, hl, by rw [hpd, hp], ?_⟩
  rw [h, hd, hp, hs]
  by_cases hlt : s.lastPO < B.proximityOrder
  · simp [hlt]
  · cases s.pastDepth <;> simp [hlt]
    split_ifs <;> omega

/-- Once found, the saturation depth stays through the remaining bins. -/
theorem feed_binConsumer_keeps (L : List (Bin Entry)) {s : Phase1} (hs : s.saturationDepth ≠ -1) :
    (feed (k.binConsumer R) L s).1.saturationDepth = s.saturationDepth :=
  feed_inv (P := fun s' : Phase1 => s'.saturationDepth = s.saturationDepth)
    (fun B _ _ hs' => (binConsumer_keeps B (hs' ▸ hs)).trans hs') rfl

include hm hlt in
/-- The first phase's fold over the bins from order `i` on, started where the orders below `i`
were found full, finds the least of the radius and the first order that is not full. -/
theorem phase1_fold :
    ∀ {L : List (Bin Entry)} {i : Nat} {s : Phase1}, Suffix k R count L i → (0 < i ∨ L ≠ []) →
      s.lastPO = i → s.saturationDepth = -1 → s.pastDepth = false →
      (feed (k.binConsumer R) L s).1.saturationDepth = min R m
  | [], i, s, h, hne, _, _, _ => by
    rcases h.radius with ⟨-, rfl⟩ | ⟨_, hB, -⟩
    · simp at hne
    · cases hB
  | B :: L, i, s, h, _, hl, hd, hp => by
    have him := h.le_least hm
    have hB := h.ge B (.head _)
    have hs := h.size_eq B (.head _)
    obtain ⟨hgo, hlast, hpast, hdepth⟩ := binConsumer_first B hd (k := k) (R := R)
    rw [hl, hp] at hpast hdepth
    rw [feed_cons]
    dsimp only
    rw [if_pos hgo]
    rcases Nat.lt_or_ge i B.proximityOrder with hi | hi
    · -- an empty order is skipped below the bin: the depth is found there
      rw [if_pos hi] at hdepth
      have hmi := h.least_eq hm hlt fun hf => absurd hf.1 (by rw [h.count_skipped hi]; omega)
      subst hmi
      rw [feed_binConsumer_keeps _ (by omega), hdepth, min_eq_right h.le_radius]
    · have hpo : B.proximityOrder = i := by omega
      rw [if_neg (by omega)] at hdepth
      by_cases hc : R ≤ B.proximityOrder ∨ B.size < k.expectedMinBinSize B.proximityOrder
      · -- the radius is reached, or the bin is not full: the depth is the bin's order
        rw [if_pos (.inr hc)] at hdepth
        rw [feed_binConsumer_keeps _ (by omega), hdepth]
        rcases hc with hR | hsize
        · rw [min_eq_left (by omega)]
          have := h.le_radius
          omega
        · have hmi := h.least_eq hm hlt fun hf => by
            have := hf.2
            rw [← hpo, ← hs.1] at this
            omega
          subst hmi
          rw [min_eq_right h.le_radius, hpo]
      · -- a full bin below the radius: go on from the next order
        rw [if_neg (by simpa using hc)] at hdepth
        have hfull : Full k count i := ⟨hpo ▸ hs.2, by rw [← hpo, ← hs.1]; omega⟩
        exact phase1_fold (h.tail hpo hfull (by omega)) (.inl (Nat.succ_pos i))
          (by rw [hlast, hpo]) hdepth (by simp [hpast, hpo] at hc ⊢; omega)

end Fold

/-! ## The law over the default conns -/

/-- The bins `EachBin` presents on a valid conns pot, counted by the conns at each order, are a
suffix from order 0 under the pot's neighbourhood radius. -/
theorem suffix_binsOf (k : Kademlia) {t : Pot Entry} (ht : Valid t) :
    Suffix k (neighbourhoodRadiusForPot (some t) k.params.neighbourhoodSize k.base)
      (fun q => (countAt k.base (vals t) q : Int)) (binsOf k.base.bits pof 0 t) 0 := by
  have hg := groups_of_valid k.base 0 ht
  have hR := radius_cases ht k.params.neighbourhoodSize k.base
  refine ⟨hg.sorted, fun _ _ => Nat.zero_le _, fun B hB => ?_, fun q _ hgap => ?_,
    fun q hq => absurd hq (Nat.not_lt_zero q), ?_, ?_⟩
  · rw [hg.countAt_bin hB, hg.size_eq B hB]
    exact ⟨rfl, by have := List.length_pos.2 (hg.ne_nil B hB); omega⟩
  · rw [hg.countAt_gap (Nat.zero_le q) hgap]
    rfl
  · rcases hR with h | ⟨v, -, h⟩ <;> rw [h] <;> omega
  · rcases hR with h | ⟨v, hv, h⟩
    · exact .inl ⟨h, rfl⟩
    · obtain ⟨B, hB, -, hvB⟩ := hg.exists_bin hv (Nat.zero_le _)
      exact .inr ⟨B, hB, by rw [h, hvB]⟩

/-- Over a valid default conns pot, `saturation` is the least of the neighbourhood radius and the
first order whose bin is empty or holds fewer peers than `expectedMinBinSize` asks; when the conns
hold a peer, the first phase of `SuggestPeer` finds the same depth. -/
theorem saturation_eq {k : Kademlia} {t : Pot Entry} (hconns : k.defaultIndex.conns = some t)
    (ht : Valid t) {m : Nat}
    (hm : countAt k.base (vals t) m = 0 ∨
      (countAt k.base (vals t) m : Int) < k.expectedMinBinSize m)
    (hlt : ∀ q < m, 0 < countAt k.base (vals t) q ∧
      k.expectedMinBinSize q ≤ countAt k.base (vals t) q) :
    k.saturation =
        min (neighbourhoodRadiusForPot k.defaultIndex.conns k.params.neighbourhoodSize k.base) m ∧
      (vals t ≠ [] → k.suggestPeerPhase1.saturationDepth = k.saturation) := by
  have hS := suffix_binsOf k ht
  have hm' : ¬ Full k (fun q => (countAt k.base (vals t) q : Int)) m := fun ⟨h₁, h₂⟩ => by
    dsimp only at h₁ h₂
    omega
  have hlt' : ∀ q < m, Full k (fun q => (countAt k.base (vals t) q : Int)) q := fun q hq =>
    ⟨by dsimp only; exact_mod_cast (hlt q hq).1, (hlt q hq).2⟩
  have hsat : k.saturation =
      min (neighbourhoodRadiusForPot k.defaultIndex.conns k.params.neighbourhoodSize k.base) m := by
    have := saturation_fold hm' hlt' hS
    simp only [saturation, hconns, EachBin, if_true, eachBin_eq]
    simpa using this
  refine ⟨hsat, fun hne => ?_⟩
  obtain ⟨v, hv⟩ := List.exists_mem_of_ne_nil _ hne
  obtain ⟨B, hB, -⟩ := (groups_of_valid k.base 0 ht).exists_bin hv (Nat.zero_le _)
  rw [hsat]
  simp only [suggestPeerPhase1, hconns, EachBin, if_true, eachBin_eq]
  exact phase1_fold hm' hlt' hS (.inr (List.ne_nil_of_mem hB)) rfl rfl rfl

/-- The 256-bit key that starts with the bits `l` and goes on with zeros. -/
def keyOfPrefix (l : List Bool) : Key 256 :=
  ⟨(l ++ List.replicate 256 false).take 256, by
    rw [List.length_take, List.length_append, List.length_replicate]
    omega⟩

/-- The offline entry of the key that starts with the bits `l`. -/
def prefixEntry (l : List Bool) : Entry := ⟨⟨keyOfPrefix l, [], []⟩, none, 0, 0⟩

set_option maxRecDepth 10000 in
/-- Two peers at order 0 and two at order 1 from the base: both bins hold the two peers they are
expected to, the radius is 1, and both computations give depth 1. -/
theorem saturation_eq_two_full_bins :
    ∃ (k : Kademlia) (t : Pot Entry), k.defaultIndex.conns = some t ∧ Valid t ∧ vals t ≠ [] ∧
      k.saturation = 1 ∧ k.suggestPeerPhase1.saturationDepth = 1 := by
  let t := (add (add (add (add (empty : Pot Entry) (prefixEntry [true]) pof).1
    (prefixEntry [true, true]) pof).1 (prefixEntry [false, true]) pof).1
    (prefixEntry [false, true, true]) pof).1
  let k₀ := NewKademlia zeroKey NewKadParams ⟨0, []⟩ ⟨1, []⟩
  let k : Kademlia := { k₀ with defaultIndex := { k₀.defaultIndex with conns := some t } }
  have ht : Valid t := add_valid (add_valid (add_valid (add_valid (.inl rfl) _) _) _) _
  obtain ⟨hsat, hphase⟩ := saturation_eq (k := k) (m := 2) rfl ht (by decide) (by decide)
  have hne : vals t ≠ [] := by decide
  have h1 : k.saturation = 1 := hsat.trans (by decide)
  exact ⟨k, t, rfl, ht, hne, h1, (hphase hne).trans h1⟩

end Swarm.Network
