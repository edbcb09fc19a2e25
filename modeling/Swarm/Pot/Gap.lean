import Swarm.Pot.Add

/-!
# PotWithPo and BiggestAddressGap

Two read-only walks of pot/pot.go over a pot and a pivot. `PotWithPo` returns the part of the
pot whose values lie at one proximity order `desiredPo` from the pivot: it descends while the pin
is nearer the pivot than `desiredPo`, prunes the node at the pivot's own order, and returns a
sibling bin when the pin is farther. `BiggestAddressGap` looks for the least order at which some
pin of the pot has no bin, stopping on each level at the first gap between bins.

The main results are `PotWithPo_spec`, that `PotWithPo` returns exactly the values at order
`desiredPo` from the pivot, in a well-formed pot at that order (`PotWithPo_wf`), and for
`BiggestAddressGap` that what it reports below order 256 is a gap of the pot
(`BiggestAddressGap_gapAt`), an address region that holds none of the pot's values
(`GapAt.region`), though not always the biggest: it misses the gap after the last bin of a node
(`BiggestAddressGap_skips_last`).
-/

namespace Swarm.Pot

variable {α : Type} {n : Nat} [BytesAddress α n]

mutual
/-- `PotWithPo`, on a non-nil receiver. The bin at the pivot's order is the one `getPos` finds;
`potWithPoAt` walks to it as `getPos` does. -/
def PotWithPo (t : Pot α) (pivotVal : Key n) (desiredPo : Int) (pof : Pof) : Option (Pot α) :=
  match t with
  | ⟨pin, bins, size, _⟩ =>
    if size = 0 then none
    else
      let pivotProximityOrder := (pof (toBytes pin) pivotVal.bits 0).1
      if (pivotProximityOrder : Int) < desiredPo then
        potWithPoAt pivotVal desiredPo pof pivotProximityOrder bins
      else if (pivotProximityOrder : Int) = desiredPo then
        let pivotBinIndex := (getPos bins pivotProximityOrder).2
        let actualPivotPlace : Int :=
          if (getPos bins pivotProximityOrder).1.isNone then pivotBinIndex - 1 else pivotBinIndex
        let removedBinsSize := sizes (bins.take (actualPivotPlace + 1).toNat)
        some ⟨pin, bins.drop (actualPivotPlace + 1).toNat, size - removedBinsSize,
          desiredPo.toNat⟩
      else bins.find? fun b => (b.po : Int) = desiredPo

/-- `pivotPot.PotWithPo(...)` on the bin `t.getPos(po)` finds, nil when there is none. -/
def potWithPoAt (pivotVal : Key n) (desiredPo : Int) (pof : Pof) (po : Nat) :
    List (Pot α) → Option (Pot α)
  | [] => none
  | b :: bins =>
    if po > b.po then potWithPoAt pivotVal desiredPo pof po bins
    else if po < b.po then none
    else PotWithPo b pivotVal desiredPo pof
end

mutual
/-- `BiggestAddressGap`: the order of the gap found and the pin it is relative to. -/
def BiggestAddressGap : Pot α → Nat × Option α
  | ⟨pin, bins, size, po⟩ =>
    if size = 0 then (0, none)
    else if bins.length = 0 then (po + 1, pin)
    else gapLoop pin pin 256 po bins

/-- The loop of `BiggestAddressGap` over the bins, with `wrt`, `biggest` and `last`: it stops at
the first order between bins that has none. -/
def gapLoop (pin wrt : Option α) (biggest last : Nat) : List (Pot α) → Nat × Option α
  | [] => (biggest, wrt)
  | subPot :: rest =>
    if subPot.po > last + 1 ∧ last + 1 ≤ biggest then (last + 1, pin)
    else if (BiggestAddressGap subPot).1 < biggest then
      gapLoop pin (BiggestAddressGap subPot).2 (BiggestAddressGap subPot).1 subPot.po rest
    else gapLoop pin wrt biggest subPot.po rest
end

/-! ## The values at one order from the pivot -/

/-- A value lies at order `desiredPo` from the pivot. -/
def withPo (pivotVal : Key n) (desiredPo : Int) (v : α) : Bool :=
  decide ((cpl (address v).bits pivotVal.bits : Int) = desiredPo)

/-- What `PotWithPo` is for, on the values `F` at the desired order: nil when there are none,
otherwise a pot that stores them, each once, with a size that counts them. -/
structure WithPo (F : List α) (r : Option (Pot α)) : Prop where
  none_iff : r = none ↔ F = []
  vals_perm : ∀ r', r = some r' → (vals r').Perm F
  size_eq : ∀ r', r = some r' → r'.size = F.length

/-- Where a value below a pin lies from the pivot, by the order of its bin against the pin's
order `cpl x pivot`: at its bin's order below it, at the pin's order above it, and deeper than the
pin's order in the bin at it. -/
theorem cpl_pivot_cases {t : Pot α} {x : α} (ht : Wf t) (hx : t.pin = some x)
    (hnd : ((vals t).map address).Nodup) {c : Pot α} (hc : c ∈ t.bins) {v : α}
    (hv : v ∈ vals c)
    (pivotVal : Key n) :
    (c.po < cpl (address x).bits pivotVal.bits → cpl (address v).bits pivotVal.bits = c.po) ∧
      (cpl (address x).bits pivotVal.bits < c.po →
        cpl (address v).bits pivotVal.bits = cpl (address x).bits pivotVal.bits) ∧
      (c.po = cpl (address x).bits pivotVal.bits →
        cpl (address x).bits pivotVal.bits < cpl (address v).bits pivotVal.bits) := by
  have hxv := ht.bin_cpl hx hc hv
  refine ⟨fun h => ?_, fun h => ?_, fun h => ?_⟩
  · rw [← hxv] at h ⊢
    rw [cpl_eq_of_lt (by rwa [cpl_comm]), cpl_comm]
  · rw [← hxv] at h
    rw [cpl_comm, cpl_eq_of_lt (by rwa [cpl_comm]), cpl_comm]
  · have hne : address v ≠ address x := Wf.address_ne_pin hx hnd (mem_valsOf.2 ⟨c, hc, hv⟩)
    have hlt : c.po < n := hxv ▸ Key.cpl_lt (Ne.symm hne)
    exact Key.lt_cpl (hxv.trans h) rfl (h ▸ hlt)

omit [BytesAddress α n] in
/-- Keeping the values that meet a predicate none meets keeps nothing. -/
theorem filter_valsOf_nil {P : α → Bool} {l : List (Pot α)}
    (h : ∀ c ∈ l, ∀ v ∈ vals c, P v = false) : (valsOf l).filter P = [] :=
  List.filter_eq_nil_iff.2 fun v hv => by
    obtain ⟨c, hc, hv⟩ := mem_valsOf.1 hv
    simp [h c hc v hv]

omit [BytesAddress α n] in
/-- Keeping the values that meet a predicate all meet keeps them all. -/
theorem filter_valsOf_self {P : α → Bool} {l : List (Pot α)}
    (h : ∀ c ∈ l, ∀ v ∈ vals c, P v = true) : (valsOf l).filter P = valsOf l :=
  List.filter_eq_self.2 fun v hv => by
    obtain ⟨c, hc, hv⟩ := mem_valsOf.1 hv
    exact h c hc v hv

/-- The bin search of `PotWithPo` at a bin at the order looks in that bin. -/
theorem potWithPoAt_found {pre post : List (Pot α)} {b : Pot α} {po : Nat} (pivotVal : Key n)
    (desiredPo : Int) (pof : Pof) (hpre : ∀ c ∈ pre, c.po < po) (hb : b.po = po) :
    potWithPoAt pivotVal desiredPo pof po (pre ++ b :: post) =
      PotWithPo b pivotVal desiredPo pof := by
  induction pre with
  | nil => simp [potWithPoAt, hb]
  | cons c pre ih =>
    simp only [List.mem_cons, forall_eq_or_imp] at hpre
    simp [potWithPoAt, hpre.1, ih hpre.2]

/-- The bin search of `PotWithPo` with no bin at the order finds nothing. -/
theorem potWithPoAt_gap {pre post : List (Pot α)} {po : Nat} (pivotVal : Key n) (desiredPo : Int)
    (pof : Pof) (hpre : ∀ c ∈ pre, c.po < po) (hpost : ∀ c ∈ post.head?, po < c.po) :
    potWithPoAt pivotVal desiredPo pof po (pre ++ post) = none := by
  induction pre with
  | nil =>
    cases post with
    | nil => rfl
    | cons c post => simp at hpost; simp [potWithPoAt, hpost, Nat.not_lt.2 hpost.le]
  | cons c pre ih =>
    simp only [List.mem_cons, forall_eq_or_imp] at hpre
    simp [potWithPoAt, hpre.1, ih hpre.2]

/-- The pivot's order of a pin under `DefaultPof`, compared from bit 0. -/
theorem defaultPof_pin (x : α) (pivotVal : Key n) :
    (defaultPof n (toBytes (some x)) pivotVal.bits 0).1 = cpl (address x).bits pivotVal.bits := by
  simp [toBytes, Key.defaultPof_key (Nat.zero_le _)]

/-- Nil is what `PotWithPo` is for when no value lies at the order. -/
theorem withPo_none : WithPo ([] : List α) none := ⟨by simp, by simp, by simp⟩

/-- No value of the bins `l` lies at the desired order. -/
theorem filter_withPo_nil {pivotVal : Key n} {desiredPo : Int} {l : List (Pot α)}
    (h : ∀ c ∈ l, ∀ v ∈ vals c, (cpl (address v).bits pivotVal.bits : Int) ≠ desiredPo) :
    (valsOf l).filter (withPo pivotVal desiredPo) = [] :=
  filter_valsOf_nil fun c hc v hv => by simp [withPo, h c hc v hv]

/-- Every value of the bins `l` lies at the desired order. -/
theorem filter_withPo_self {pivotVal : Key n} {desiredPo : Int} {l : List (Pot α)}
    (h : ∀ c ∈ l, ∀ v ∈ vals c, (cpl (address v).bits pivotVal.bits : Int) = desiredPo) :
    (valsOf l).filter (withPo pivotVal desiredPo) = valsOf l :=
  filter_valsOf_self fun c hc v hv => by simp [withPo, h c hc v hv]

section Node

/-! Each case of `PotWithPo` on a node `⟨some x, bins, size, po⟩`, by where the pin lies from
the pivot against `desiredPo`. -/

variable {x : α} {bins : List (Pot α)} {size : Int} {po : Nat} {pivotVal : Key n}
  {desiredPo : Int}

/-- Bins of a node below the pin's order hold values at their own order, none at an order the
pin's reaches. -/
theorem filter_below_nil (ht : Wf (⟨some x, bins, size, po⟩ : Pot α))
    (hnd : ((vals (⟨some x, bins, size, po⟩ : Pot α)).map address).Nodup) {l : List (Pot α)}
    (hl : ∀ c ∈ l, c ∈ bins) (hlt : ∀ c ∈ l, c.po < cpl (address x).bits pivotVal.bits)
    (hd : (cpl (address x).bits pivotVal.bits : Int) ≤ desiredPo) :
    (valsOf l).filter (withPo pivotVal desiredPo) = [] :=
  filter_withPo_nil fun c hc v hv => by
    have := (cpl_pivot_cases ht rfl hnd (hl c hc) hv pivotVal).1 (hlt c hc)
    have := hlt c hc
    omega

/-- Bins of a node above the pin's order hold values at the pin's order. -/
theorem filter_above (ht : Wf (⟨some x, bins, size, po⟩ : Pot α))
    (hnd : ((vals (⟨some x, bins, size, po⟩ : Pot α)).map address).Nodup) {l : List (Pot α)}
    (hl : ∀ c ∈ l, c ∈ bins) (hgt : ∀ c ∈ l, cpl (address x).bits pivotVal.bits < c.po) :
    (valsOf l).filter (withPo pivotVal desiredPo) =
      if (cpl (address x).bits pivotVal.bits : Int) = desiredPo then valsOf l else [] := by
  have hat := fun c hc v (hv : v ∈ vals c) =>
    (cpl_pivot_cases ht rfl hnd (hl c hc) hv pivotVal).2.1 (hgt c hc)
  split
  · exact filter_withPo_self fun c hc v hv => by rw [hat c hc v hv]; assumption
  · exact filter_withPo_nil fun c hc v hv => by rw [hat c hc v hv]; assumption

/-- A pin not at the desired order is not kept. -/
theorem withPo_pin_of_ne (h : (cpl (address x).bits pivotVal.bits : Int) ≠ desiredPo) :
    [x].filter (withPo pivotVal desiredPo) = [] := by
  simp [withPo, h]

/-- A pin nearer the pivot than `desiredPo`: the values sought lie in the bin at the pin's order,
where `PotWithPo` goes on, or nowhere if there is no such bin. -/
theorem potWithPo_nearer (ht : Wf (⟨some x, bins, size, po⟩ : Pot α))
    (hnd : ((vals (⟨some x, bins, size, po⟩ : Pot α)).map address).Nodup)
    (hlt : (cpl (address x).bits pivotVal.bits : Int) < desiredPo)
    (ih : ∀ b ∈ bins, ((vals b).map address).Nodup →
      WithPo ((vals b).filter (withPo pivotVal desiredPo))
        (PotWithPo b pivotVal desiredPo (defaultPof n))) :
    WithPo ((vals (⟨some x, bins, size, po⟩ : Pot α)).filter (withPo pivotVal desiredPo))
      (PotWithPo ⟨some x, bins, size, po⟩ pivotVal desiredPo (defaultPof n)) := by
  simp only [PotWithPo, if_neg ht.size_pos.ne', defaultPof_pin, if_pos hlt, vals_mk,
    Option.toList_some, List.filter_append, withPo_pin_of_ne hlt.ne, List.append_nil]
  rcases bins_split bins (cpl (address x).bits pivotVal.bits) with
    ⟨pre, b, post, rfl, hpre, hb⟩ | ⟨pre, post, rfl, hpre, hpost⟩
  · have hpost := fun c (hc : c ∈ post) => hb ▸ po_lt_of_sorted_split ht.sorted' hc
    rw [potWithPoAt_found _ _ _ hpre hb, valsOf_append, valsOf_cons, List.filter_append,
      List.filter_append,
      filter_below_nil ht hnd (fun c hc => List.mem_append_left _ hc) hpre hlt.le,
      filter_above ht hnd (fun c hc => List.mem_append_right _ (List.mem_cons_of_mem _ hc)) hpost,
      if_neg hlt.ne, List.nil_append, List.append_nil]
    exact ih b (by simp) (nodup_bin hnd)
  · have hpost' := po_lt_of_sorted_head (List.pairwise_append.1
      (List.map_append Pot.po pre post ▸ ht.sorted')).2.1 (by simpa using hpost)
    rw [potWithPoAt_gap _ _ _ hpre hpost, valsOf_append, List.filter_append,
      filter_below_nil ht hnd (fun c hc => List.mem_append_left _ hc) hpre hlt.le,
      filter_above ht hnd (fun c hc => List.mem_append_right _ hc) hpost', if_neg hlt.ne]
    exact withPo_none

/-- A pin at `desiredPo` from the pivot: the node pruned of its bins up to the pin's order holds
the pin and the bins above, which are the values sought. -/
theorem potWithPo_at (ht : Wf (⟨some x, bins, size, po⟩ : Pot α))
    (hnd : ((vals (⟨some x, bins, size, po⟩ : Pot α)).map address).Nodup)
    (heq : (cpl (address x).bits pivotVal.bits : Int) = desiredPo) :
    WithPo ((vals (⟨some x, bins, size, po⟩ : Pot α)).filter (withPo pivotVal desiredPo))
      (PotWithPo ⟨some x, bins, size, po⟩ pivotVal desiredPo (defaultPof n)) := by
  have hx : [x].filter (withPo pivotVal desiredPo) = [x] := by simp [withPo, heq]
  simp only [PotWithPo, if_neg ht.size_pos.ne', defaultPof_pin, if_neg (not_lt.2 heq.ge),
    if_pos heq, vals_mk, Option.toList_some, List.filter_append, hx]
  have hsize : size = 1 + sizes bins := ht.size_eq'
  rcases bins_split bins (cpl (address x).bits pivotVal.bits) with
    ⟨pre, b, post, rfl, hpre, hb⟩ | ⟨pre, post, rfl, hpre, hpost⟩
  · have hpost := fun c (hc : c ∈ post) => hb ▸ po_lt_of_sorted_split ht.sorted' hc
    have hbF : (vals b).filter (withPo pivotVal desiredPo) = [] :=
      List.filter_eq_nil_iff.2 fun v hv => by
        have := (cpl_pivot_cases ht rfl hnd (by simp) hv pivotVal).2.2 hb
        simp [withPo]; omega
    have hs := Wf.sizes_eq_length fun c (hc : c ∈ post) => ht.bin (by simp [hc])
    have hi : ((pre.length : Int) + 1).toNat = pre.length + 1 := by omega
    rw [getPos_found hpre hb]
    simp only [Option.isNone_some, Bool.false_eq_true, if_false, hi, List.drop_append,
      List.take_append, valsOf_append, valsOf_cons, List.filter_append, hbF,
      filter_below_nil ht hnd (fun c hc => List.mem_append_left _ hc) hpre heq.le,
      filter_above ht hnd (fun c hc => List.mem_append_right _ (List.mem_cons_of_mem _ hc)) hpost,
      if_pos heq]
    refine ⟨by simp, ?_, ?_⟩ <;> rintro _ ⟨⟩
    · simp
    · simp [hsize, hs]
      omega
  · have hpost := po_lt_of_sorted_head (List.pairwise_append.1
      (List.map_append Pot.po pre post ▸ ht.sorted')).2.1 (by simpa using hpost)
    have hs := Wf.sizes_eq_length fun c (hc : c ∈ post) => ht.bin (by simp [hc])
    have hi : ((pre.length : Int) - 1 + 1).toNat = pre.length := by omega
    rw [getPos_gap hpre (fun c hc => by simpa using hpost c (List.mem_of_mem_head? hc))]
    simp only [Option.isNone_none, if_true, hi, List.drop_left, List.take_left, valsOf_append,
      List.filter_append,
      filter_below_nil ht hnd (fun c hc => List.mem_append_left _ hc) hpre heq.le,
      filter_above ht hnd (fun c hc => List.mem_append_right _ hc) hpost, if_pos heq]
    refine ⟨by simp, ?_, ?_⟩ <;> rintro _ ⟨⟩
    · simp
    · simp [hsize, hs]
      omega

/-- A pin farther from the pivot than `desiredPo`: the values sought are those of the bin at
`desiredPo`, if there is one. -/
theorem potWithPo_farther (ht : Wf (⟨some x, bins, size, po⟩ : Pot α))
    (hnd : ((vals (⟨some x, bins, size, po⟩ : Pot α)).map address).Nodup)
    (hgt : desiredPo < (cpl (address x).bits pivotVal.bits : Int)) :
    WithPo ((vals (⟨some x, bins, size, po⟩ : Pot α)).filter (withPo pivotVal desiredPo))
      (PotWithPo ⟨some x, bins, size, po⟩ pivotVal desiredPo (defaultPof n)) := by
  simp only [PotWithPo, if_neg ht.size_pos.ne', defaultPof_pin, if_neg (not_lt.2 hgt.le),
    if_neg hgt.ne', vals_mk, Option.toList_some, List.filter_append, withPo_pin_of_ne hgt.ne',
    List.append_nil]
  -- a bin's values lie at the bin's order, which is below the pin's when it is `desiredPo`
  have hcases := fun c (hc : c ∈ bins) v (hv : v ∈ vals c) =>
    cpl_pivot_cases ht rfl hnd hc hv pivotVal
  have hne : ∀ c ∈ bins, (c.po : Int) ≠ desiredPo → ∀ v ∈ vals c,
      (cpl (address v).bits pivotVal.bits : Int) ≠ desiredPo := fun c hc hcd v hv => by
    have := hcases c hc v hv
    omega
  by_cases hd : 0 ≤ desiredPo
  · rcases bins_split bins desiredPo.toNat with
      ⟨pre, b, post, rfl, hpre, hb⟩ | ⟨pre, post, rfl, hpre, hpost⟩
    · have hpost := fun c (hc : c ∈ post) => hb ▸ po_lt_of_sorted_split ht.sorted' hc
      have hfind : (pre ++ b :: post).find? (fun c => decide ((c.po : Int) = desiredPo)) =
          some b := by
        rw [List.find?_append, List.find?_eq_none.2 fun c hc => by simp; have := hpre c hc; omega,
          List.find?_cons_of_pos _ (by simp; omega)]
        rfl
      have hF : (valsOf (pre ++ b :: post)).filter (withPo pivotVal desiredPo) = vals b := by
        rw [valsOf_append, valsOf_cons, List.filter_append, List.filter_append,
          filter_withPo_nil fun c hc => hne c (by simp [hc]) (by have := hpre c hc; omega),
          filter_withPo_nil fun c hc => hne c (by simp [hc]) (by have := hpost c hc; omega),
          List.filter_eq_self.2 fun v hv => by
            have := hcases b (by simp) v hv
            simp [withPo]; omega]
        simp
      have hbwf := ht.bin (b := b) (by simp)
      obtain ⟨y, hy⟩ := hbwf.pin_isSome
      rw [hfind, hF]
      exact ⟨by simpa using List.ne_nil_of_mem (pin_mem_vals hy), by rintro _ ⟨⟩; rfl,
        by rintro _ ⟨⟩; exact hbwf.size_eq_length⟩
    · have hpost := po_lt_of_sorted_head (List.pairwise_append.1
        (List.map_append Pot.po pre post ▸ ht.sorted')).2.1 (by simpa using hpost)
      rw [List.find?_eq_none.2 fun c hc => ?_, filter_withPo_nil fun c hc => hne c hc ?_]
      · exact withPo_none
      all_goals
        rcases List.mem_append.1 hc with hc | hc
        · have := hpre c hc
          simp
          omega
        · have := hpost c hc
          simp
          omega
  · rw [List.find?_eq_none.2 fun c _ => by simp; omega,
      filter_withPo_nil fun c hc => hne c hc (by omega)]
    exact withPo_none

end Node

/-- `PotWithPo` on a well-formed node whose values have distinct keys returns what `WithPo` asks
for the values at the desired order. -/
theorem potWithPo_withPo (pivotVal : Key n) (desiredPo : Int) :
    ∀ {t : Pot α}, Wf t → ((vals t).map address).Nodup →
      WithPo ((vals t).filter (withPo pivotVal desiredPo))
        (PotWithPo t pivotVal desiredPo (defaultPof n)) := by
  intro t ht
  induction ht with
  | @node x bins size po size_eq sorted bins_wf bins_po bins_cpl ih =>
  intro hnd
  have ht : Wf (⟨some x, bins, size, po⟩ : Pot α) :=
    .node size_eq sorted bins_wf bins_po bins_cpl
  rcases lt_trichotomy (cpl (address x).bits pivotVal.bits : Int) desiredPo with hlt | heq | hgt
  · exact potWithPo_nearer ht hnd hlt ih
  · exact potWithPo_at ht hnd heq
  · exact potWithPo_farther ht hnd hgt

/-- `PotWithPo` on a valid pot returns nil exactly when no stored value lies at order `desiredPo`
from the pivot; otherwise a pot whose values, those `Each` visits, are the stored values at that
order, each once, and whose size counts them. -/
theorem PotWithPo_spec {t : Pot α} (ht : Valid t) (pivotVal : Key n) (desiredPo : Int) :
    (PotWithPo t pivotVal desiredPo (defaultPof n) = none ↔
        ∀ v ∈ vals t, (cpl (address v).bits pivotVal.bits : Int) ≠ desiredPo) ∧
      ∀ r, PotWithPo t pivotVal desiredPo (defaultPof n) = some r →
        (vals r).Perm ((vals t).filter fun v =>
            (cpl (address v).bits pivotVal.bits : Int) = desiredPo) ∧
          r.size = ((vals t).filter fun v =>
            (cpl (address v).bits pivotVal.bits : Int) = desiredPo).length := by
  rcases ht with rfl | ⟨-, hwf, hnd⟩
  · simp [PotWithPo, empty, newPot]
  · have W := potWithPo_withPo pivotVal desiredPo hwf hnd
    exact ⟨W.none_iff.trans (by simp [withPo]),
      fun r hr => ⟨W.vals_perm r hr, W.size_eq r hr⟩⟩

/-- The 3-bit keys `000`, `010` and `011`, and `PotWithPo` at order 1 from `011`. -/
theorem PotWithPo_spec_three_bits :
    let t := (add (add (add (empty : Pot (Key 3)) ⟨[false, false, false], rfl⟩ (defaultPof 3)).1
      ⟨[false, true, false], rfl⟩ (defaultPof 3)).1 ⟨[false, true, true], rfl⟩ (defaultPof 3)).1
    Valid t ∧
      ((PotWithPo t ⟨[false, true, true], rfl⟩ 1 (defaultPof 3) = none ↔
          ∀ v ∈ vals t, (cpl (address v).bits [false, true, true] : Int) ≠ 1) ∧
        ∀ r, PotWithPo t ⟨[false, true, true], rfl⟩ 1 (defaultPof 3) = some r →
          (vals r).Perm ((vals t).filter fun v => (cpl (address v).bits [false, true, true] : Int) = 1) ∧
            r.size = ((vals t).filter fun v =>
              (cpl (address v).bits [false, true, true] : Int) = 1).length) :=
  have ht := add_valid (add_valid (add_valid (.inl rfl) _) _) _
  ⟨ht, PotWithPo_spec ht _ _⟩

/-- `PotWithPo` on a well-formed pot returns a well-formed pot at the desired order. -/
theorem PotWithPo_wf (pivotVal : Key n) (desiredPo : Int) :
    ∀ {t : Pot α}, Wf t → ∀ r, PotWithPo t pivotVal desiredPo (defaultPof n) = some r →
      Wf r ∧ (r.po : Int) = desiredPo := by
  intro t ht
  induction ht with
  | @node x bins size po size_eq sorted bins_wf bins_po bins_cpl ih =>
  have ht : Wf (⟨some x, bins, size, po⟩ : Pot α) := .node size_eq sorted bins_wf bins_po bins_cpl
  intro r hr
  simp only [PotWithPo, if_neg ht.size_pos.ne', defaultPof_pin] at hr
  by_cases hlt : (cpl (address x).bits pivotVal.bits : Int) < desiredPo
  · -- the pin is nearer: `PotWithPo` goes on in the bin at the pin's order
    rw [if_pos hlt] at hr
    rcases bins_split bins (cpl (address x).bits pivotVal.bits) with
      ⟨pre, b, post, rfl, hpre, hb⟩ | ⟨pre, post, rfl, hpre, hpost⟩
    · rw [potWithPoAt_found _ _ _ hpre hb] at hr
      exact ih b (by simp) r hr
    · rw [potWithPoAt_gap _ _ _ hpre hpost] at hr
      cases hr
  rw [if_neg hlt] at hr
  by_cases heq : (cpl (address x).bits pivotVal.bits : Int) = desiredPo
  · -- the pin is at the desired order: the node pruned of the bins up to it
    rw [if_pos heq] at hr
    have hnode : ∀ (post : List (Pot α)) (size' : Int), List.Sublist post bins →
        size' = 1 + sizes post → (∀ c ∈ post, cpl (address x).bits pivotVal.bits < c.po) →
        Wf (⟨some x, post, size', desiredPo.toNat⟩ : Pot α) := fun post size' hsub hs hgt =>
      .node hs (sorted.sublist (hsub.map _)) (fun c hc => bins_wf c (hsub.subset hc))
        (fun c hc => by have := hgt c hc; omega) (fun c hc => bins_cpl c (hsub.subset hc))
    rcases bins_split bins (cpl (address x).bits pivotVal.bits) with
      ⟨pre, b, post, rfl, hpre, hb⟩ | ⟨pre, post, rfl, hpre, hpost⟩
    · have hpost := fun c (hc : c ∈ post) => hb ▸ po_lt_of_sorted_split sorted hc
      have hi : ((pre.length : Int) + 1).toNat = pre.length + 1 := by omega
      rw [getPos_found hpre hb] at hr
      simp only [Option.isNone_some, Bool.false_eq_true, if_false, hi, List.drop_append,
        List.take_append, Option.some.injEq] at hr
      subst hr
      exact ⟨hnode post _ (by simp) (by simp [size_eq]; omega) hpost, by simp; omega⟩
    · have hpost := po_lt_of_sorted_head (List.pairwise_append.1
        (List.map_append Pot.po pre post ▸ sorted)).2.1 (by simpa using hpost)
      have hi : ((pre.length : Int) - 1 + 1).toNat = pre.length := by omega
      rw [getPos_gap hpre (fun c hc => by simpa using hpost c (List.mem_of_mem_head? hc))] at hr
      simp only [Option.isNone_none, if_true, hi, List.drop_left, List.take_left,
        Option.some.injEq] at hr
      subst hr
      exact ⟨hnode post _ (by simp) (by simp [size_eq]; omega) hpost, by simp; omega⟩
  · -- the pin is farther: the bin at the desired order
    rw [if_neg heq] at hr
    exact ⟨bins_wf r (List.mem_of_find?_eq_some hr), by simpa using List.find?_some hr⟩

/-! ## The biggest address gap -/

/-- From the spec: the order `o` is an address gap of `t` at the pin `x`, some node of `t` with
pin `x` and order `p` having `o > p` and no bin at `o`. -/
inductive GapAt : Pot α → Nat → α → Prop
  | here {x : α} {bins : List (Pot α)} {size : Int} {po o : Nat} :
      po < o → (∀ b ∈ bins, b.po ≠ o) → GapAt ⟨some x, bins, size, po⟩ o x
  | bin {pin : Option α} {bins : List (Pot α)} {size : Int} {po : Nat} {b : Pot α} {o : Nat}
      {x : α} : b ∈ bins → GapAt b o x → GapAt ⟨pin, bins, size, po⟩ o x

/-- `BiggestAddressGap` misses the gap after the last bin of a node. On a pin `x` at order `p`
whose one bin, at `p + 1`, holds `y` over `z` at `p + 2`, it reports the gap `p + 3` at `z`,
while `x` has no bin at `p + 2`. -/
theorem BiggestAddressGap_skips_last (x y z : α) (p : Nat) {s₁ s₂ s₃ : Int} (h₁ : s₁ ≠ 0)
    (h₂ : s₂ ≠ 0) (h₃ : s₃ ≠ 0) (hp : p + 3 < 256) :
    BiggestAddressGap (⟨some x, [⟨some y, [⟨some z, [], s₃, p + 2⟩], s₂, p + 1⟩], s₁, p⟩ : Pot α) =
        (p + 3, some z) ∧
      GapAt (⟨some x, [⟨some y, [⟨some z, [], s₃, p + 2⟩], s₂, p + 1⟩], s₁, p⟩ : Pot α) (p + 2) x := by
  refine ⟨?_, .here (by omega) (by simp)⟩
  simp [BiggestAddressGap, gapLoop, h₁, h₂, h₃, hp]

/-- The 3-bit keys `000`, `010` and `011`: `BiggestAddressGap` reports order 3 at `011`, skipping
the gap after the last bin of `000`. -/
theorem BiggestAddressGap_skips_last_three_bits :
    let t : Pot (Key 3) := ⟨some ⟨[false, false, false], rfl⟩,
      [⟨some ⟨[false, true, false], rfl⟩, [⟨some ⟨[false, true, true], rfl⟩, [], 1, 2⟩], 2, 1⟩], 3, 0⟩
    Valid t ∧ BiggestAddressGap t = (3, some ⟨[false, true, true], rfl⟩) ∧
      GapAt t 2 ⟨[false, false, false], rfl⟩ := by
  have ht : Valid (add (add (add (empty : Pot (Key 3)) ⟨[false, false, false], rfl⟩
      (defaultPof 3)).1 ⟨[false, true, false], rfl⟩ (defaultPof 3)).1 ⟨[false, true, true], rfl⟩
      (defaultPof 3)).1 := add_valid (add_valid (add_valid (.inl rfl) _) _) _
  exact ⟨ht,
    BiggestAddressGap_skips_last _ _ _ 0 (by decide) (by decide) (by decide) (by decide)⟩

/-- The loop of `BiggestAddressGap` on node `⟨some x, bins, size, po⟩`, from the bins `rest` on,
the bins before `rest` lying no deeper than `last`: what it reports below order 256 is a gap of
the node, when what it holds is one. -/
theorem gapLoop_gapAt {x : α} {bins : List (Pot α)} {size : Int} {po : Nat}
    (hsorted : (bins.map Pot.po).Pairwise (· < ·)) (hpo : ∀ b ∈ bins, po ≤ b.po)
    (ih : ∀ b ∈ bins, ∀ o w, BiggestAddressGap b = (o, w) → o < 256 →
      ∃ y, w = some y ∧ GapAt b o y) :
    ∀ (pre rest : List (Pot α)) (wrt : Option α) (biggest last : Nat), bins = pre ++ rest →
      po ≤ last → (∀ b ∈ pre, b.po ≤ last) →
      (biggest < 256 → ∃ y, wrt = some y ∧ GapAt ⟨some x, bins, size, po⟩ biggest y) →
      ∀ o w, gapLoop (some x) wrt biggest last rest = (o, w) → o < 256 →
        ∃ y, w = some y ∧ GapAt ⟨some x, bins, size, po⟩ o y
  | _, [], wrt, biggest, _, _, _, _, hb, o, w, h, ho => by
    rw [gapLoop, Prod.mk.injEq] at h
    obtain ⟨rfl, rfl⟩ := h
    exact hb ho
  | pre, b :: rest, wrt, biggest, last, hbins, hlast, hpre, hb, o, w, h, ho => by
    have hmem : b ∈ bins := hbins ▸ List.mem_append_right _ (.head _)
    have hs := hbins ▸ hsorted
    simp only [List.map_append, List.map_cons, List.pairwise_append, List.pairwise_cons,
      List.mem_map, List.mem_cons] at hs
    have hnext : ∀ (wrt' : Option α) (biggest' : Nat),
        (biggest' < 256 → ∃ y, wrt' = some y ∧ GapAt ⟨some x, bins, size, po⟩ biggest' y) →
        gapLoop (some x) wrt' biggest' b.po rest = (o, w) →
          ∃ y, w = some y ∧ GapAt ⟨some x, bins, size, po⟩ o y :=
      fun wrt' biggest' hb' h' => gapLoop_gapAt hsorted hpo ih (pre ++ [b]) rest wrt' biggest'
        b.po (by simp [hbins]) (hpo b hmem)
        (fun c hc => by
          rcases List.mem_append.1 hc with hc | hc
          · exact (hs.2.2 _ ⟨c, hc, rfl⟩ _ (.inl rfl)).le
          · rw [List.mem_singleton.1 hc]) hb' o w h' ho
    rw [gapLoop] at h
    split_ifs at h with hgap hsub
    · -- no bin at `last + 1`: the bins before lie no deeper than `last`, those after deeper
      rw [Prod.mk.injEq] at h
      obtain ⟨rfl, rfl⟩ := h
      refine ⟨x, rfl, .here (by omega) fun c hc hco => ?_⟩
      rw [hbins] at hc
      rcases List.mem_append.1 hc with hc | hc | hc
      · have := hpre c hc
        omega
      · omega
      · have := hs.2.1.1 _ ⟨c, by assumption, rfl⟩
        omega
    · exact hnext _ _ (fun hlt => (ih b hmem _ _ rfl hlt).imp fun y ⟨hy, hg⟩ =>
        ⟨hy, .bin hmem hg⟩) h
    · exact hnext wrt biggest hb h

/-- `BiggestAddressGap` on a well-formed pot reports a gap: an order below 256 it returns is an
order at which some pin of the pot, the value it returns, has no bin. -/
theorem BiggestAddressGap_gapAt {t : Pot α} (ht : Wf t) :
    ∀ o w, BiggestAddressGap t = (o, w) → o < 256 → ∃ y, w = some y ∧ GapAt t o y := by
  induction ht with
  | @node x bins size po size_eq sorted bins_wf bins_po bins_cpl ih =>
  intro o w h ho
  have ht : Wf (⟨some x, bins, size, po⟩ : Pot α) := .node size_eq sorted bins_wf bins_po bins_cpl
  rw [BiggestAddressGap, if_neg ht.size_pos.ne'] at h
  split_ifs at h with hlen
  · rw [Prod.mk.injEq] at h
    obtain ⟨rfl, rfl⟩ := h
    exact ⟨x, rfl, .here (by omega) (by simp [List.length_eq_zero.1 hlen])⟩
  · exact gapLoop_gapAt sorted bins_po ih [] bins (some x) 256 po rfl le_rfl (by simp)
      (fun h => absurd h (lt_irrefl _)) o w h ho

/-- The value the loop of `BiggestAddressGap` reports is `wrt`, the pin, or one a bin reports. -/
theorem gapLoop_mem {S : List α} {pin : Option α} (hpin : ∀ y, pin = some y → y ∈ S) :
    ∀ (rest : List (Pot α)) (wrt : Option α) (biggest last : Nat),
      (∀ b ∈ rest, ∀ y, (BiggestAddressGap b).2 = some y → y ∈ S) →
      (∀ y, wrt = some y → y ∈ S) → ∀ y, (gapLoop pin wrt biggest last rest).2 = some y → y ∈ S
  | [], _, _, _, _, hw => by simpa only [gapLoop] using hw
  | b :: rest, wrt, biggest, last, hb, hw => by
    have hrest := gapLoop_mem hpin rest
    rw [gapLoop]
    split_ifs
    · exact hpin
    · exact hrest _ _ _ (fun b' h => hb b' (.tail _ h)) (hb b (.head _))
    · exact hrest _ _ _ (fun b' h => hb b' (.tail _ h)) hw

/-- The value `BiggestAddressGap` reports, whatever the order, is one of the pot's values. -/
theorem BiggestAddressGap_mem {t : Pot α} (ht : Wf t) :
    ∀ y, (BiggestAddressGap t).2 = some y → y ∈ vals t := by
  induction ht with
  | @node x bins size po size_eq sorted bins_wf bins_po bins_cpl ih =>
  have hx : ∀ y, some x = some y → y ∈ vals (⟨some x, bins, size, po⟩ : Pot α) := by
    rintro y ⟨⟩
    simp
  rw [BiggestAddressGap]
  split_ifs
  · exact fun _ h => by cases h
  · exact hx
  · exact gapLoop_mem hx bins _ _ _ (fun b hb y hy => by
      simpa only [vals_mk, List.mem_append] using .inl (mem_valsOf.2 ⟨b, hb, ih b hb y hy⟩)) hx

/-- A gap of a well-formed pot is an empty region: no value of the pot shares exactly `o` bits
with the pin of the gap, which is one of the pot's values at an order below `o`. -/
theorem GapAt.region {t : Pot α} {o : Nat} {x : α} (hg : GapAt t o x) (ht : Wf t) (ho : o < n) :
    x ∈ vals t ∧ t.po < o ∧ ∀ v ∈ vals t, cpl (address v).bits (address x).bits ≠ o := by
  induction hg with
  | @here x bins size po o hpo hbins =>
    refine ⟨pin_mem_vals rfl, hpo, fun v hv => ?_⟩
    rw [vals_mk, List.mem_append, mem_valsOf] at hv
    rcases hv with ⟨b, hb, hvb⟩ | hv
    · rw [cpl_comm, ht.bin_cpl rfl hb hvb]
      exact hbins b hb
    · simp only [Option.toList_some, List.mem_singleton] at hv
      rw [hv, cpl_self, (address x).length_bits]
      exact ho.ne'
  | @bin pin bins size po b o x hb hgb ih =>
    obtain ⟨hxb, hbo, hcpl⟩ := ih (ht.bin hb) ho
    obtain ⟨y, rfl⟩ := ht.pin_isSome
    have hyx : cpl (address y).bits (address x).bits = b.po := ht.bin_cpl rfl hb hxb
    refine ⟨by simp [mem_valsOf]; exact .inl ⟨b, hb, hxb⟩, (ht.bin_po hb).trans_lt hbo,
      fun v hv => ?_⟩
    rw [vals_mk, List.mem_append, mem_valsOf] at hv
    rcases hv with ⟨c, hc, hvc⟩ | hv
    · by_cases hcb : c = b
      · subst hcb
        exact hcpl v hvc
      · have hyv : cpl (address y).bits (address v).bits = c.po := ht.bin_cpl rfl hc hvc
        have hne : c.po ≠ b.po := ((List.pairwise_map.1 ht.sorted').imp fun h => h.ne).forall
          (fun _ _ h => h.symm) hc hb hcb
        -- the ultrametric: `v` and `x` share the shorter of their prefixes with `y`
        rcases Nat.lt_or_gt_of_ne hne with hlt | hlt
        · rw [cpl_comm] at hyv
          rw [cpl_eq_of_lt (by rw [hyv, hyx]; exact hlt), hyv]
          omega
        · rw [cpl_comm, cpl_eq_of_lt (by rw [cpl_comm, hyx, hyv]; exact hlt), cpl_comm, hyx]
          omega
    · simp only [Option.toList_some, List.mem_singleton] at hv
      rw [hv, hyx]
      omega

/-- What `BiggestAddressGap` reports below order 256 on a well-formed pot of `n`-bit keys, with
the order below `n`, is an uncovered address region: its value is one of the pot's, and no value
of the pot shares exactly that many bits with it. -/
theorem BiggestAddressGap_uncovered {t : Pot α} (ht : Wf t) {o : Nat} {w : Option α}
    (hgap : BiggestAddressGap t = (o, w)) (ho : o < 256) (hon : o < n) :
    ∃ x, w = some x ∧ x ∈ vals t ∧ ∀ v ∈ vals t, cpl (address v).bits (address x).bits ≠ o := by
  obtain ⟨x, rfl, hg⟩ := BiggestAddressGap_gapAt ht o w hgap ho
  obtain ⟨hx, -, hreg⟩ := hg.region ht hon
  exact ⟨x, rfl, hx, hreg⟩

/-- The 3-bit keys `000` and `011`: `BiggestAddressGap` reports order 2 at `011`, and neither key
lies at order 2 from it. -/
theorem BiggestAddressGap_uncovered_three_bits :
    let t := (add (add (empty : Pot (Key 3)) ⟨[false, false, false], rfl⟩ (defaultPof 3)).1
      ⟨[false, true, true], rfl⟩ (defaultPof 3)).1
    Wf t ∧ BiggestAddressGap t = (2, some ⟨[false, true, true], rfl⟩) ∧ 2 < 256 ∧ 2 < 3 ∧
      ∃ x, some ⟨[false, true, true], rfl⟩ = some x ∧ x ∈ vals t ∧
        ∀ v ∈ vals t, cpl (address v).bits (address x).bits ≠ 2 := by
  intro t
  have ht : Valid t := add_valid (add_valid (.inl rfl) _) _
  have hgap : BiggestAddressGap t = (2, some ⟨[false, true, true], rfl⟩) := by decide
  rcases ht with h | ⟨-, hwf, -⟩
  · exact absurd (congrArg Pot.size h) (by decide)
  · exact ⟨hwf, hgap, by decide, by decide, BiggestAddressGap_uncovered hwf hgap (by decide)
      (by decide)⟩

end Swarm.Pot
