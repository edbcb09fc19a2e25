import Swarm.Network.Flags
import Swarm.Pot.Coverage

/-!
# The neighbourhood radius and depth in closed form

`neighbourhoodRadiusForPot` counts the values other than the pivot that `EachNeighbour` presents,
nearest first, and takes the order of the `neighbourhoodSize`-th. `depthForPot` walks the bins
that ascending `EachBin` presents while they sit at the orders `0, 1, ...`, and stops at the
radius. Over a valid pot both come to what the stored values alone determine: the radius is the
`neighbourhoodSize`-th largest order to the pivot of a value other than the pivot (`closeness`),
and the depth is the least of the radius and the first order at which no such value lies
(`depth_radius_eq`).
-/

namespace Swarm.Network

open Pot

/-- The orders to the pivot of the stored values other than the pivot, nearest first. -/
def closeness (t : Pot Entry) (pivotAddr : Key 256) : List Nat :=
  (((vals t).filter fun v => address v ≠ pivotAddr).map fun v =>
    cpl (address v).bits pivotAddr.bits).mergeSort fun a b => b ≤ a

/-! ## The radius -/

/-- `radiusConsumer` from count `c` below `neighbourhoodSize`: the order of the pair that brings
the count of pairs off the pivot to `neighbourhoodSize`, or the depth it had when there is none. -/
theorem feed_radiusConsumer (neighbourhoodSize : Int) :
    ∀ (M : List (Entry × Nat)) (c : Int) (d : Nat), c < neighbourhoodSize →
      (feed (fun p => radiusConsumer neighbourhoodSize p.1 p.2) M (c, d)).1.2 =
        (((M.map Prod.snd).filter (· ≠ 256))[(neighbourhoodSize - c - 1).toNat]?).getD d
  | [], c, d, _ => by simp
  | (v, i) :: M, c, d, hc => by
    rw [feed_cons]
    by_cases hi : i = 256
    · simp only [radiusConsumer, hi, ↓reduceIte, feed_radiusConsumer neighbourhoodSize M c d hc,
        ne_eq, decide_not, List.map_cons, decide_True, Bool.not_true, Bool.false_eq_true,
        not_false_eq_true, List.filter_cons_of_neg]
    · by_cases hn : c + 1 = neighbourhoodSize
      · have : (neighbourhoodSize - c - 1).toNat = 0 := by omega
        simp only [radiusConsumer, hi, ↓reduceIte, hn, Bool.false_eq_true, ne_eq, decide_not,
          List.map_cons, decide_False, Bool.not_false, List.filter_cons_of_pos, this, List.length_cons,
          List.getElem?_cons_zero, Option.getD_some]
      · have : (neighbourhoodSize - c - 1).toNat = (neighbourhoodSize - (c + 1) - 1).toNat + 1 := by
          omega
        simp only [radiusConsumer, hi, ↓reduceIte, hn,
          feed_radiusConsumer neighbourhoodSize M (c + 1) d (by omega), ne_eq, decide_not,
          List.map_cons, decide_False, Bool.not_false, List.filter_cons_of_pos, this,
          List.getElem?_cons_succ]

/-- The orders `EachNeighbour` presents off the pivot are `closeness`: both are sorted nearest
first, and both hold the orders of the same values. -/
theorem neighboursOf_closeness {t : Pot Entry} (ht : Wf t) (hpo : t.po = 0) (pivotAddr : Key 256) :
    ((neighboursOf pivotAddr.bits pof t).map Prod.snd).filter (· ≠ 256) =
      closeness t pivotAddr := by
  have hfloor : ∀ x, t.pin = some x → t.po ≤ cpl (address x).bits pivotAddr.bits :=
    fun _ _ => by rw [hpo]; exact Nat.zero_le _
  have hsnd : (neighboursOf pivotAddr.bits pof t).map Prod.snd =
      ((neighboursOf pivotAddr.bits pof t).map Prod.fst).map
        fun v => cpl (address v).bits pivotAddr.bits := by
    rw [List.map_map]
    exact List.map_congr_left fun p hp => (neighboursOf_sound pivotAddr ht hfloor p.1 p.2 hp).2
  refine List.eq_of_perm_of_sorted (r := (· ≥ ·)) ?_
    ((neighboursOf_sorted pivotAddr ht hfloor).filter _) ?_
  · rw [hsnd, List.filter_map, closeness]
    refine List.Perm.trans ?_ (List.mergeSort_perm _ _).symm
    refine List.Perm.map _ ((((neighboursOf_fst _ _ ht).filter _)).trans ?_)
    rw [List.filter_congr (q := fun v => decide (address v ≠ pivotAddr))
      fun v _ => by simp [Key.cpl_eq_iff]]
  · refine (List.sorted_mergeSort (fun a b c hab hbc => ?_) (fun a b => ?_) _).imp ?_
    · simp only [decide_eq_true_eq] at hab hbc ⊢
      omega
    · simpa using Nat.le_total b a
    · simp

/-- Every order in `closeness` is that of a value other than the pivot, so below the key
length. -/
theorem lt_of_mem_closeness {t : Pot Entry} {pivotAddr : Key 256} {q : Nat}
    (hq : q ∈ closeness t pivotAddr) : q < 256 := by
  obtain ⟨v, hv, rfl⟩ := List.mem_map.1 ((List.mergeSort_perm _ _).subset hq)
  exact Key.cpl_lt (of_decide_eq_true (List.mem_filter.1 hv).2)

/-- At most one stored value sits at the pivot, so all but one are in `closeness`. -/
theorem size_le_length_closeness {t : Pot Entry} (ht : Valid t) (pivotAddr : Key 256) :
    t.size ≤ (closeness t pivotAddr).length + 1 := by
  have hsize : t.size = (vals t).length := by
    rcases ht with rfl | ⟨-, hwf, -⟩
    · rfl
    · exact hwf.size_eq_length
  have hat : ((vals t).filter fun v => address v = pivotAddr).length ≤ 1 := by
    have hnd : (((vals t).filter fun v => address v = pivotAddr).map address).Nodup :=
      ht.nodup.sublist ((List.filter_sublist _).map address)
    have h1 := List.nodup_iff_count_le_one.1 hnd pivotAddr
    rwa [List.count_eq_length.2 fun b hb => ?_, List.length_map] at h1
    obtain ⟨v, hv, rfl⟩ := List.mem_map.1 hb
    exact (of_decide_eq_true (List.mem_filter.1 hv).2).symm
  have := List.length_eq_length_filter_add (l := vals t) fun v => decide (address v = pivotAddr)
  simp only [closeness, List.length_mergeSort, List.length_map, ne_eq, decide_not] at this ⊢
  omega

/-- Over a valid pot with more than `neighbourhoodSize ≥ 1` values, the radius is the
`neighbourhoodSize`-th order of `closeness`. -/
theorem radius_eq {t : Pot Entry} (ht : Valid t) {neighbourhoodSize : Int}
    (hn : 1 ≤ neighbourhoodSize) (hsize : neighbourhoodSize < t.size) (pivotAddr : Key 256) :
    ∃ r, (closeness t pivotAddr)[(neighbourhoodSize - 1).toNat]? = some r ∧
      neighbourhoodRadiusForPot (some t) neighbourhoodSize pivotAddr = r := by
  have hlen := size_le_length_closeness ht pivotAddr
  rcases ht with rfl | ⟨hpo, hwf, -⟩
  · simp [empty, newPot] at hsize
    omega
  · have hi : (neighbourhoodSize - 1).toNat < (closeness t pivotAddr).length := by omega
    refine ⟨_, List.getElem?_eq_getElem hi, ?_⟩
    rw [neighbourhoodRadiusForPot, if_neg (by simp [potSize]; omega)]
    rw [eachNeighbour_eq _ _ _ hwf]
    refine (feed_radiusConsumer neighbourhoodSize _ 0 0 (by omega)).trans ?_
    rw [neighboursOf_closeness hwf hpo, Int.sub_zero, List.getElem?_eq_getElem hi, Option.getD_some]

/-! ## The depth -/

/-- `depthConsumer` from depth `d` over bins at strictly ascending orders from `d` on: it ends at
a depth `r` no deeper than `maxDepth`, with a bin at every order from `d` below `r`, and `r` is
`maxDepth` or an order with no bin. -/
theorem feed_depthConsumer (maxDepth : Int) :
    ∀ (L : List (Bin Entry)) (d : Nat), (L.map Bin.proximityOrder).Pairwise (· < ·) →
      (∀ B ∈ L, d ≤ B.proximityOrder) → (d : Int) ≤ maxDepth →
      ∃ r : Nat, (feed (depthConsumer maxDepth) L d).1 = r ∧ d ≤ r ∧ (r : Int) ≤ maxDepth ∧
        (∀ q, d ≤ q → q < r → ∃ B ∈ L, B.proximityOrder = q) ∧
        ((r : Int) = maxDepth ∨ ∀ B ∈ L, B.proximityOrder ≠ r)
  | [], d, _, _, hd => ⟨d, rfl, le_rfl, hd, fun q h₁ h₂ => absurd h₂ (by omega), .inr nofun⟩
  | B :: L, d, hs, hge, hd => by
    rw [List.map_cons, List.pairwise_cons, List.forall_mem_map] at hs
    have hB := hge B (.head _)
    rw [feed_cons]
    by_cases hpo : B.proximityOrder = d
    · by_cases hm : maxDepth = d
      · refine ⟨d, by simp [depthConsumer, hpo, hm], le_rfl, hd, fun q h₁ h₂ => absurd h₂ (by omega),
          .inl hm.symm⟩
      · obtain ⟨r, hr, hdr, hrm, hq, hgap⟩ := feed_depthConsumer maxDepth L (d + 1) hs.2
          (fun B' hB' => by have := hs.1 B' hB'; omega) (by omega)
        refine ⟨r, by simpa [depthConsumer, hpo, hm] using hr, by omega, hrm, fun q h₁ h₂ => ?_,
          hgap.imp_right fun h B' hB' => ?_⟩
        · rcases Nat.eq_or_lt_of_le h₁ with rfl | h₁
          · exact ⟨B, .head _, hpo⟩
          · obtain ⟨B', hB', h⟩ := hq q h₁ h₂
            exact ⟨B', .tail _ hB', h⟩
        · rcases List.mem_cons.1 hB' with rfl | hB'
          · omega
          · exact h B' hB'
    · refine ⟨d, by simp [depthConsumer, hpo], le_rfl, hd, fun q h₁ h₂ => absurd h₂ (by omega),
        .inr fun B' hB' => ?_⟩
      rcases List.mem_cons.1 hB' with rfl | hB'
      · exact hpo
      · have := hs.1 B' hB'
        omega

/-- Over a valid pot with more than `neighbourhoodSize` values and radius `r`, the depth is the
least of `r` and the first order at which no value other than the pivot lies. -/
theorem depth_eq {t : Pot Entry} (ht : Valid t) {neighbourhoodSize : Int}
    (hsize : neighbourhoodSize < t.size) (pivotAddr : Key 256) {r : Nat}
    (hr : neighbourhoodRadiusForPot (some t) neighbourhoodSize pivotAddr = r) (hr256 : r < 256) :
    ∃ g : Nat, (∀ po < g, ∃ v ∈ vals t, address v ≠ pivotAddr ∧
        cpl (address v).bits pivotAddr.bits = po) ∧
      (∀ v ∈ vals t, address v ≠ pivotAddr → cpl (address v).bits pivotAddr.bits ≠ g) ∧
      depthForPot (some t) neighbourhoodSize pivotAddr = min (r : Int) g := by
  have hg := groups_of_valid pivotAddr 0 ht
  obtain ⟨d, hd, -, hdr, hq, hgap⟩ := feed_depthConsumer r _ 0 hg.sorted
    (fun _ _ => Nat.zero_le _) (by omega)
  have hdepth : depthForPot (some t) neighbourhoodSize pivotAddr = d := by
    rw [depthForPot, if_neg (by simp [potSize]; omega)]
    simp only [hr, EachBin, if_true, eachBin_eq]
    exact hd
  -- A bin below the radius holds a value at its order, and that value is not the pivot.
  have present : ∀ q < d, ∃ v ∈ vals t, address v ≠ pivotAddr ∧
      cpl (address v).bits pivotAddr.bits = q := fun q hq' => by
    obtain ⟨B, hB, rfl⟩ := hq q (Nat.zero_le _) hq'
    obtain ⟨v, hv, -, hvq⟩ := hg.exists_val hB
    refine ⟨v, hv, fun h => ?_, hvq⟩
    rw [h, cpl_self, pivotAddr.length_bits] at hvq
    omega
  by_cases hdr' : (d : Int) = r
  · -- The depth is the radius, and the first order without a value lies at or beyond it.
    have hex : ∃ g, ∀ v ∈ vals t, address v ≠ pivotAddr →
        cpl (address v).bits pivotAddr.bits ≠ g :=
      ⟨256, fun v _ hv => (Key.cpl_lt hv).ne⟩
    classical
    refine ⟨Nat.find hex, fun po hpo => ?_, Nat.find_spec hex, ?_⟩
    · have := Nat.find_min hex hpo
      push_neg at this
      exact this
    · rw [hdepth, ← hdr', min_eq_left]
      by_contra hlt
      obtain ⟨v, hv, hne, heq⟩ := present (Nat.find hex) (by omega)
      exact Nat.find_spec hex v hv hne heq
  · -- The depth stopped at an order with no bin, below the radius.
    refine ⟨d, present, fun v hv _ heq => ?_, by rw [hdepth, min_eq_right hdr]⟩
    obtain ⟨B, hB, -, hvB⟩ := hg.exists_bin hv (Nat.zero_le _)
    exact hgap.resolve_left hdr' B hB (hvB ▸ heq)

/-- `neighbourhoodRadiusForPot` and `depthForPot` over a valid pot and `neighbourhoodSize ≥ 1`.
Both are 0 when the pot holds no more values than `neighbourhoodSize`. Otherwise the radius is
the `neighbourhoodSize`-th order of `closeness`, and the depth is the least of the radius and the
first order at which no value other than the pivot lies. So the depth is at most the radius, and
at every order below the depth lies a value other than the pivot. -/
theorem depth_radius_eq {t : Pot Entry} (ht : Valid t) {neighbourhoodSize : Int}
    (hn : 1 ≤ neighbourhoodSize) (pivotAddr : Key 256) :
    (t.size ≤ neighbourhoodSize →
      neighbourhoodRadiusForPot (some t) neighbourhoodSize pivotAddr = 0 ∧
        depthForPot (some t) neighbourhoodSize pivotAddr = 0) ∧
    (neighbourhoodSize < t.size → ∃ r g : Nat,
      (closeness t pivotAddr)[(neighbourhoodSize - 1).toNat]? = some r ∧
      neighbourhoodRadiusForPot (some t) neighbourhoodSize pivotAddr = r ∧
      (∀ po < g, ∃ v ∈ vals t, address v ≠ pivotAddr ∧
        cpl (address v).bits pivotAddr.bits = po) ∧
      (∀ v ∈ vals t, address v ≠ pivotAddr → cpl (address v).bits pivotAddr.bits ≠ g) ∧
      depthForPot (some t) neighbourhoodSize pivotAddr = min (r : Int) g) ∧
    depthForPot (some t) neighbourhoodSize pivotAddr ≤
      neighbourhoodRadiusForPot (some t) neighbourhoodSize pivotAddr ∧
    ∀ po : Nat, (po : Int) < depthForPot (some t) neighbourhoodSize pivotAddr →
      ∃ v ∈ vals t, address v ≠ pivotAddr ∧ cpl (address v).bits pivotAddr.bits = po := by
  by_cases h : t.size ≤ neighbourhoodSize
  · have hrad : neighbourhoodRadiusForPot (some t) neighbourhoodSize pivotAddr = 0 := by
      simp [neighbourhoodRadiusForPot, potSize, h]
    have hdep : depthForPot (some t) neighbourhoodSize pivotAddr = 0 := by
      simp [depthForPot, potSize, h]
    refine ⟨fun _ => ⟨hrad, hdep⟩, fun h' => absurd h' (by omega), by rw [hrad, hdep],
      fun po hpo => absurd hpo (by omega)⟩
  · obtain ⟨r, hr, hrad⟩ := radius_eq ht hn (by omega) pivotAddr
    obtain ⟨g, hpres, hgap, hdep⟩ :=
      depth_eq ht (by omega) pivotAddr hrad (lt_of_mem_closeness (List.getElem?_mem hr))
    refine ⟨fun h' => absurd h' h, fun _ => ⟨r, g, hr, hrad, hpres, hgap, hdep⟩,
      by rw [hrad, hdep]; exact min_le_left _ _, fun po hpo => hpres po ?_⟩
    rw [hdep] at hpo
    omega

/-- The depth and radius of a pot of two peers, one at the pivot, with `neighbourhoodSize` 1. -/
theorem depth_radius_eq_two :
    ∃ t : Pot Entry, Valid t ∧ t.size = 2 ∧
      depthForPot (some t) 1 zeroKey ≤ neighbourhoodRadiusForPot (some t) 1 zeroKey :=
  have ht := add_valid (add_valid (.inl rfl) (⟨⟨zeroKey, [], []⟩, none, 0, 0⟩ : Entry))
    (⟨⟨farKey, [], []⟩, none, 0, 0⟩ : Entry)
  ⟨_, ht, by decide, (depth_radius_eq ht le_rfl zeroKey).2.2.1⟩

end Swarm.Network
