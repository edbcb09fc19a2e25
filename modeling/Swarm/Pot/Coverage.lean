import Swarm.Pot.Bins

/-!
# What the iterators present, and in which order

Read `eachNeighbour_presents` and `eachBin_presents` first. On a valid pot, with `DefaultPof(n)`
and a key as the pivot, `eachNeighbour` hands every stored value to its consumer exactly once,
with its proximity order to the pivot, the orders never increasing; ascending `EachBin` hands over
bins at strictly increasing orders not below `minPO`, each running over exactly the stored values
at its order. Both stop at the first `false` the consumer answers (`feed_record`).
-/

namespace Swarm.Pot

variable {α : Type} {n : Nat} [BytesAddress α n]

/-- The values of a list of bins are the flattened values of each. -/
theorem valsOf_eq_flatMap (l : List (Pot α)) : valsOf l = l.flatMap vals := by
  induction l with
  | nil => simp
  | cons b l ih => simp [ih]

/-- Reversing a list of bins permutes their values. -/
theorem valsOf_reverse_perm (l : List (Pot α)) : (valsOf l.reverse).Perm (valsOf l) := by
  rw [valsOf_eq_flatMap, valsOf_eq_flatMap]
  exact (List.reverse_perm l).flatMap_right _

/-! ## Every value once -/

section Values

variable (pivot : Bits) (pof : Pof)

/-- The values `neighboursTail` lists are the pin's, those of the higher bins, reversed, and those
of the lower ones. -/
theorem neighboursTail_fst (pin : Option α) (po : Nat) (higher pre : List (Pot α)) :
    (neighboursTail pin po higher pre).map Prod.fst =
      pin.toList ++ valsOf higher.reverse ++ valsOf pre := by
  simp [neighboursTail, valsOf_eq_flatMap, List.map_flatMap, Function.comp_def]

/-- The values `neighboursAt` lists are a permutation of the pin's and those of all the bins. -/
theorem neighboursAt_fst (pin : Option α) (po : Nat) :
    ∀ (pre bins : List (Pot α)),
      (∀ b ∈ bins, ((neighboursOf pivot pof b).map Prod.fst).Perm (vals b)) →
      ((neighboursAt pivot pof pin po pre bins).map Prod.fst).Perm
        (pin.toList ++ valsOf pre ++ valsOf bins)
  | pre, [], _ => by simp [neighboursAt, neighboursTail_fst]
  | pre, b :: bins, ih => by
    simp only [List.mem_cons, forall_eq_or_imp] at ih
    simp only [neighboursAt]
    split
    · refine (neighboursAt_fst pin po (b :: pre) bins ih.2).trans ?_
      simp only [valsOf_cons, List.append_assoc]
      exact List.Perm.append_left _ (List.perm_append_comm_assoc _ _ _)
    · split
      · rw [List.map_append, neighboursTail_fst]
        refine (ih.1.append_right _).trans ?_
        classical
        rw [List.perm_iff_count]
        intro a
        simp only [List.count_append, valsOf_cons, (valsOf_reverse_perm bins).count_eq]
        omega
      · classical
        rw [List.perm_iff_count]
        intro a
        simp only [neighboursTail_fst, List.count_append, (valsOf_reverse_perm _).count_eq,
          valsOf_cons]
        omega

/-- `eachNeighbour` on a well-formed pot presents each stored value once. -/
theorem neighboursOf_fst {t : Pot α} (ht : Wf t) :
    ((neighboursOf pivot pof t).map Prod.fst).Perm (vals t) := by
  induction ht with
  | @node x bins size po size_eq _ bins_wf _ _ ih =>
    have hsize : size ≠ 0 := by have := Wf.sizes_eq_length bins_wf; omega
    simp only [neighboursOf, hsize, if_false, vals_mk]
    split
    · rw [neighboursTail_fst]
      simpa using ((valsOf_reverse_perm bins).cons x).trans (List.perm_append_singleton _ _).symm
    · refine (neighboursAt_fst pivot pof _ _ [] bins ih).trans ?_
      simpa using (List.perm_append_singleton _ _).symm

end Values

/-! ## Orders never increase -/

section Orders

variable (pivot : Bits) (pof : Pof)

/-- The values of bins, each at its bin's order, the orders of the bins not increasing. -/
theorem blocks_sorted : ∀ {pre : List (Pot α)}, (pre.map Pot.po).Pairwise (· ≥ ·) →
    ((pre.flatMap fun b => (vals b).map fun v => (v, b.po)).map Prod.snd).Pairwise (· ≥ ·)
  | [], _ => by simp
  | b :: pre, h => by
    simp only [List.map_cons, List.pairwise_cons, List.mem_map] at h
    simp only [List.flatMap_cons, List.map_append, List.map_map, List.pairwise_append]
    refine ⟨by simp [Function.comp_def, List.pairwise_map], blocks_sorted h.2, ?_⟩
    simp only [List.mem_map, List.mem_flatMap, Function.comp_apply]
    rintro _ ⟨v, -, rfl⟩ _ ⟨_, ⟨c, hc, -, -, rfl⟩, rfl⟩
    exact h.1 _ ⟨c, hc, rfl⟩

/-- The orders `neighboursTail` lists are at most `po`, when the lower bins lie there. -/
theorem le_of_mem_neighboursTail {pin : Option α} {po : Nat} {higher pre : List (Pot α)}
    (hle : ∀ c ∈ pre, c.po ≤ po) {q : Nat}
    (hq : q ∈ (neighboursTail pin po higher pre).map Prod.snd) : q ≤ po := by
  obtain ⟨⟨v, q⟩, hvq, rfl⟩ := List.mem_map.1 hq
  rcases mem_neighboursTail.1 hvq with ⟨-, rfl⟩ | ⟨c, hc, -, rfl⟩
  · exact le_rfl
  · exact hle c hc

/-- The orders `neighboursTail` lists do not grow, when the lower bins descend below `po`. -/
theorem neighboursTail_sorted {pin : Option α} {po : Nat} {higher pre : List (Pot α)}
    (hpre : (pre.map Pot.po).Pairwise (· ≥ ·)) (hle : ∀ c ∈ pre, c.po ≤ po) :
    ((neighboursTail pin po higher pre).map Prod.snd).Pairwise (· ≥ ·) := by
  rw [neighboursTail, List.map_append, List.pairwise_append]
  refine ⟨by simp [Function.comp_def, List.pairwise_map], blocks_sorted hpre, fun a ha c hc => ?_⟩
  obtain ⟨_, hp, rfl⟩ := List.mem_map.1 ha
  obtain ⟨v, -, rfl⟩ := List.mem_map.1 hp
  obtain ⟨_, hvc, rfl⟩ := List.mem_map.1 hc
  obtain ⟨c', hc', hv⟩ := List.mem_flatMap.1 hvc
  obtain ⟨w, -, rfl⟩ := List.mem_map.1 hv
  exact hle c' hc'

/-- The walk of `eachNeighbour` along a node's bins, the bins at the pivot's order presenting
orders not below it, presents orders that never increase. -/
theorem neighboursAt_sorted (pin : Option α) (po : Nat) :
    ∀ (pre bins : List (Pot α)), (bins.map Pot.po).Pairwise (· < ·) →
      (pre.map Pot.po).Pairwise (· ≥ ·) → (∀ c ∈ pre, ∀ b ∈ bins, c.po < b.po) →
      (∀ c ∈ pre, c.po ≤ po) →
      (∀ b ∈ bins, b.po = po → ((neighboursOf pivot pof b).map Prod.snd).Pairwise (· ≥ ·) ∧
        ∀ q ∈ (neighboursOf pivot pof b).map Prod.snd, po ≤ q) →
      ((neighboursAt pivot pof pin po pre bins).map Prod.snd).Pairwise (· ≥ ·)
  | pre, [], _, hpre, _, hle, _ => by
    simpa [neighboursAt] using neighboursTail_sorted hpre hle
  | pre, b :: bins, hbins, hpre, hlt, hle, ih => by
    simp only [List.map_cons, List.pairwise_cons, List.mem_map] at hbins
    simp only [neighboursAt]
    split
    · refine neighboursAt_sorted pin po (b :: pre) bins hbins.2 ?_ ?_ ?_
        (fun b' hb' => ih b' (.tail _ hb'))
      · simp only [List.map_cons, List.pairwise_cons, List.mem_map]
        exact ⟨by rintro _ ⟨c, hc, rfl⟩; exact (hlt c hc b (.head _)).le, hpre⟩
      · rintro c (_ | ⟨_, hc⟩) b' hb'
        · exact hbins.1 _ ⟨b', hb', rfl⟩
        · exact hlt c hc b' (.tail _ hb')
      · rintro c (_ | ⟨_, hc⟩)
        · omega
        · exact hle c hc
    · split
      · obtain ⟨hs, hge⟩ := ih b (.head _) ‹_›
        rw [List.map_append, List.pairwise_append]
        refine ⟨hs, neighboursTail_sorted hpre hle, fun a ha c hc => ?_⟩
        exact (le_of_mem_neighboursTail hle hc).trans (hge a ha)
      · exact neighboursTail_sorted hpre hle

end Orders

/-- With `DefaultPof(n)` and a key as the pivot, the orders `eachNeighbour` presents on a
well-formed node whose order does not exceed its pin's never increase. -/
theorem neighboursOf_sorted (k : Key n) {t : Pot α} (ht : Wf t)
    (hfloor : ∀ x, t.pin = some x → t.po ≤ cpl (address x).bits k.bits) :
    ((neighboursOf k.bits (defaultPof n) t).map Prod.snd).Pairwise (· ≥ ·) := by
  induction ht with
  | @node x bins size po size_eq sorted bins_wf bins_po bins_cpl ih =>
  have hwf : Wf (⟨some x, bins, size, po⟩ : Pot α) := .node size_eq sorted bins_wf bins_po bins_cpl
  have hpof : defaultPof n (toBytes (some x)) k.bits po =
      (cpl (address x).bits k.bits, decide (address x = k)) := Key.defaultPof_key (hfloor x rfl)
  simp only [neighboursOf, hwf.size_pos.ne', if_false, hpof]
  split
  · -- the pin is the pivot: the bins follow, deepest first
    rename_i hxk
    have hrev : (bins.reverse.map Pot.po).Pairwise (· ≥ ·) := by
      rw [List.map_reverse, List.pairwise_reverse]
      exact sorted.imp le_of_lt
    refine neighboursTail_sorted hrev fun c hc => ?_
    obtain ⟨y, hy⟩ := (bins_wf c (List.mem_reverse.1 hc)).pin_isSome
    rw [← bins_cpl c (List.mem_reverse.1 hc) y (pin_mem_vals hy), of_decide_eq_true hxk, cpl_self,
      k.length_bits]
    exact Key.cpl_le _ _
  · refine neighboursAt_sorted _ _ _ _ [] bins sorted (by simp) (by simp) (by simp)
      fun b hb hbk => ⟨ih b hb (fun y hy => hwf.bin_floor hb hbk hy), ?_⟩
    simp only [List.mem_map, Prod.exists, exists_and_right, exists_eq_right]
    rintro q ⟨v, hvq⟩
    obtain ⟨hv, rfl⟩ := neighboursOf_sound k (hwf.bin hb)
      (fun y hy => hwf.bin_floor hb hbk hy) v q hvq
    have := min_cpl_le (address v).bits (address x).bits k.bits
    rw [cpl_comm (address v).bits, bins_cpl b hb v hv, hbk] at this
    omega

/-! ## The iterators on valid pots -/

/-- `EachNeighbour` on a valid pot, with `DefaultPof(n)` and a key as the pivot. There is a list
`L` of value and order pairs holding every stored value exactly once, each with its proximity
order to the pivot, the orders never increasing. On a pot that is not empty `eachNeighbour` feeds
its consumer the pairs of `L` in turn, stopping at the first `false`; a consumer that records
the pairs it is given records those of `L` up to the first it answers `false` to. -/
theorem eachNeighbour_presents {t : Pot α} (ht : Valid t) (k : Key n) :
    ∃ L : List (α × Nat), (L.map Prod.fst).Perm (vals t) ∧
      (∀ p ∈ L, p.2 = cpl (address p.1).bits k.bits) ∧ (L.map Prod.snd).Pairwise (· ≥ ·) ∧
      (∀ {σ : Type} (consume : α → Nat → σ → σ × Bool) (s : σ), t.size ≠ 0 →
        eachNeighbour k.bits (defaultPof n) consume t s = feed (fun p => consume p.1 p.2) L s) ∧
      ∀ (go : α → Nat → Bool) (acc : List (α × Nat)),
        (eachNeighbour k.bits (defaultPof n) (fun v q acc => (acc ++ [(v, q)], go v q)) t acc).1 =
          acc ++ presented (fun p => go p.1 p.2) L := by
  rcases ht with rfl | ⟨hpo, hwf, -⟩
  · exact ⟨[], by simp [empty, newPot], by simp, by simp, fun _ _ h => absurd rfl h,
      fun _ _ => by simp [eachNeighbour, empty, newPot, presented]⟩
  · have hfloor : ∀ x, t.pin = some x → t.po ≤ cpl (address x).bits k.bits :=
      fun _ _ => by rw [hpo]; exact Nat.zero_le _
    refine ⟨_, neighboursOf_fst _ _ hwf, fun p hp => (neighboursOf_sound k hwf hfloor p.1 p.2 hp).2,
      neighboursOf_sorted k hwf hfloor, fun consume s _ => eachNeighbour_eq _ _ consume hwf s,
      fun go acc => ?_⟩
    rw [eachNeighbour_eq _ _ _ hwf]
    exact congrArg Prod.fst (feed_record (fun p => go p.1 p.2) _ acc)

/-- `eachNeighbour` on a pot of two 2-bit keys, from a third key. -/
theorem eachNeighbour_presents_two :
    Valid (add (add (empty : Pot (Key 2)) ⟨[true, false], rfl⟩ (defaultPof 2)).1
        ⟨[false, true], rfl⟩ (defaultPof 2)).1 ∧
      ∃ L : List (Key 2 × Nat), (L.map Prod.fst).Perm
        (vals (add (add (empty : Pot (Key 2)) ⟨[true, false], rfl⟩ (defaultPof 2)).1
          ⟨[false, true], rfl⟩ (defaultPof 2)).1) ∧ (L.map Prod.snd).Pairwise (· ≥ ·) :=
  have ht := add_valid (add_valid (.inl rfl) _) _
  let ⟨L, hperm, _, hsorted, _⟩ := eachNeighbour_presents ht ⟨[false, false], rfl⟩
  ⟨ht, L, hperm, hsorted⟩

/-- Ascending `EachBin` on a valid pot, with `DefaultPof(n)` and a key as the pivot. There is a
list `L` of bins at strictly increasing orders not below `minPO`; each bin runs over exactly the
stored values at its order, each once, and its size counts them; and every stored value at an
order not below `minPO` lies in exactly one bin. `EachBin` feeds its consumer the bins of `L` in
turn, stopping at the first `false`. -/
theorem eachBin_presents {t : Pot α} (ht : Valid t) (k : Key n) (minPO : Nat) :
    ∃ L : List (Bin α),
      (L.map Bin.proximityOrder).Pairwise (· < ·) ∧ (∀ B ∈ L, minPO ≤ B.proximityOrder) ∧
      (∀ B ∈ L, (∀ {σ : Type} (consume : α → σ → σ × Bool) (s : σ),
          B.valIterator.run consume s = feed consume B.valIterator.vals s) ∧
        B.valIterator.vals.Perm
          ((vals t).filter fun v => cpl (address v).bits k.bits = B.proximityOrder) ∧
        B.size = B.valIterator.vals.length) ∧
      (∀ v ∈ vals t, minPO ≤ cpl (address v).bits k.bits →
        ∃! B, B ∈ L ∧ v ∈ B.valIterator.vals) ∧
      (∀ {σ : Type} (consume : Bin α → σ → σ × Bool) (s : σ),
        EachBin t k.bits (defaultPof n) minPO consume true s = (feed consume L s).1) ∧
      ∀ (go : Bin α → Bool) (acc : List (Bin α)),
        EachBin t k.bits (defaultPof n) minPO (fun B acc => (acc ++ [B], go B)) true acc =
          acc ++ presented go L := by
  have hg := groups_of_valid k minPO ht
  refine ⟨_, hg.sorted, fun B hB => ?_, fun B hB => ⟨hg.run_eq B hB, ?_, hg.size_eq B hB⟩,
    fun v hv hq => ?_, fun consume s => eachBin_eq .., fun go acc => ?_⟩
  · obtain ⟨v, -, hv, hvB⟩ := hg.exists_val hB
    exact hvB ▸ hv
  · obtain ⟨w, -, hw, hwB⟩ := hg.exists_val hB
    rw [← binVals_filter_bin k hg.sorted hg.cpl_eq hB]
    refine (hg.perm.filter _).trans ?_
    rw [List.filter_filter]
    refine (List.filter_congr fun v _ => ?_).subst (motive := fun l => List.Perm l _) (List.Perm.refl _)
    by_cases h : cpl (address v).bits k.bits = B.proximityOrder <;> simp [h]
    omega
  · obtain ⟨B, hB, hvB, -⟩ := hg.exists_bin hv hq
    refine ⟨B, ⟨hB, hvB⟩, fun B' ⟨hB', hvB'⟩ => ?_⟩
    exact List.inj_on_of_nodup_map (hg.sorted.nodup) hB' hB
      ((hg.cpl_eq B' hB' v hvB').symm.trans (hg.cpl_eq B hB v hvB))
  · rw [EachBin, if_pos rfl, eachBin_eq]
    exact congrArg Prod.fst (feed_record go _ acc)

/-- Ascending `EachBin` on a pot of two 2-bit keys, from a third key. -/
theorem eachBin_presents_two :
    Valid (add (add (empty : Pot (Key 2)) ⟨[true, false], rfl⟩ (defaultPof 2)).1
        ⟨[false, true], rfl⟩ (defaultPof 2)).1 ∧
      ∃ L : List (Bin (Key 2)), (L.map Bin.proximityOrder).Pairwise (· < ·) ∧
        ∀ B ∈ L, B.size = B.valIterator.vals.length :=
  have ht := add_valid (add_valid (.inl rfl) _) _
  let ⟨L, hsorted, _, hbins, _⟩ := eachBin_presents ht ⟨[false, false], rfl⟩ 0
  ⟨ht, L, hsorted, fun B hB => (hbins B hB).2.2⟩

/-! ## A floor on the orders -/

mutual
/-- The bins `eachBin` presents from order `minPO` on are those it presents from 0, less those
below `minPO`. -/
theorem binsOf_filter (pivot : Bits) (pof : Pof) (minPO : Nat) : ∀ t : Pot α,
    binsOf pivot pof minPO t = (binsOf pivot pof 0 t).filter fun B => minPO ≤ B.proximityOrder
  | ⟨pin, bins, tsize, tpo⟩ => by
    simp only [binsOf]
    split
    · rfl
    · exact binsAt_filter pivot pof minPO _ _ 0 bins

/-- The bins from `minPO` on are those from order 0 on at `minPO` or deeper. -/
theorem binsAt_filter (pivot : Bits) (pof : Pof) (minPO : Nat) :
    ∀ (t : Pot α) (vpo : Nat) (size : Int) (bins : List (Pot α)),
      binsAt pivot pof minPO t vpo size bins =
        (binsAt pivot pof 0 t vpo size bins).filter fun B => minPO ≤ B.proximityOrder
  | t, vpo, size, [] => by
    simp only [binsAt]
    by_cases h : minPO ≤ vpo <;> simp [h]
  | t, vpo, size, b :: bins => by
    simp only [binsAt]
    split
    · rw [binsAt_filter pivot pof minPO t vpo (size + b.size) bins]
      by_cases h : b.po < minPO
      · simp [h, List.filter_append]
      · simp [h, List.filter_cons, Nat.not_lt.1 h]
    · by_cases hmin : minPO ≤ vpo <;> by_cases heq : b.po = vpo <;>
        simp [hmin, heq, List.filter_append, binsOf_filter pivot pof minPO b]
end

end Swarm.Pot
