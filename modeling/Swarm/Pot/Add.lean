import Swarm.Pot.Invariant

/-!
# Adding a value

`add`, the body of the exported `Add`, inserts a value into a pot. A value whose key matches the
pin replaces it; otherwise the value goes into the bin at its proximity order to the pin, which is
added to recursively, or into a new single-value bin opened at that order. `add_result` describes
what `add` returns on a well-formed node, and `add_valid` lifts it to roots.
-/

namespace Swarm.Pot

variable {α : Type} {n : Nat} [BytesAddress α n]

mutual
/-- `add`: inserts `val` and returns the new pot, the proximity order at which `val` was last
compared, and whether a value with its key was found. -/
def add (t : Pot α) (val : α) (pof : Pof) : Pot α × Nat × Bool :=
  match t with
  | ⟨none, bins, size, po⟩ => (⟨some val, bins, size + 1, po⟩, 0, false)
  | ⟨some pin, bins, size, tpo⟩ =>
    let c := pof (address pin).bits (address val).bits tpo
    if c.2 then (⟨some val, bins, size, tpo⟩, c.1, true)
    else
      let l := addLoop c.1 val pof bins
      let p := l.1.getD ⟨some val, [], 1, c.1⟩
      (⟨some pin, bins.take l.2.1 ++ p :: bins.drop l.2.2.1, if l.2.2.2 then size else size + 1,
        tpo⟩, c.1, l.2.2.2)

/-- The `for i < len(t.bins)` loop of `add`: the recursive result for the bin at order `po` when
there is one (`nil` otherwise), the indices `i` and `j` around it, and the `found` it returned. -/
def addLoop (po : Nat) (val : α) (pof : Pof) : List (Pot α) → Option (Pot α) × Nat × Nat × Bool
  | [] => (none, 0, 0, false)
  | b :: bins =>
    if b.po = po then (some (add b val pof).1, 0, 1, (add b val pof).2.2)
    else if b.po > po then (none, 0, 0, false)
    else ((addLoop po val pof bins).1, (addLoop po val pof bins).2.1 + 1,
      (addLoop po val pof bins).2.2.1 + 1, (addLoop po val pof bins).2.2.2)
end

/-- `Add`. -/
def Add (t : Pot α) (val : α) (pof : Pof) : Pot α × Nat × Bool := add t val pof

/-- The loop of `add` at a bin at the value's order adds the value to that bin. -/
theorem addLoop_found {pre post : List (Pot α)} {b : Pot α} {po : Nat} (val : α) (pof : Pof)
    (hpre : ∀ c ∈ pre, c.po < po) (hb : b.po = po) :
    addLoop po val pof (pre ++ b :: post) =
      (some (add b val pof).1, pre.length, pre.length + 1, (add b val pof).2.2) := by
  induction pre with
  | nil => simp [addLoop, hb]
  | cons c pre ih =>
    simp only [List.mem_cons, forall_eq_or_imp] at hpre
    simp [addLoop, hpre.1.ne, Nat.not_lt.2 hpre.1.le, ih hpre.2]

/-- The loop of `add` with no bin at the value's order finds the gap to insert a new bin in. -/
theorem addLoop_gap {pre post : List (Pot α)} {po : Nat} (val : α) (pof : Pof)
    (hpre : ∀ c ∈ pre, c.po < po) (hpost : ∀ c ∈ post.head?, po < c.po) :
    addLoop po val pof (pre ++ post) = (none, pre.length, pre.length, false) := by
  induction pre with
  | nil =>
    cases post with
    | nil => rfl
    | cons c post => simp at hpost; simp [addLoop, hpost, hpost.ne']
  | cons c pre ih =>
    simp only [List.mem_cons, forall_eq_or_imp] at hpre
    simp [addLoop, hpre.1.ne, Nat.not_lt.2 hpre.1.le, ih hpre.2]

/-- What `add` returns on a well-formed node: a well-formed node at the same order holding `val`
and every value of `t` with another key. `found` says whether `t` had a value with `val`'s key,
and the size grows by one unless it had. -/
structure AddResult (t : Pot α) (val : α) (r : Pot α × Nat × Bool) : Prop where
  wf : Wf r.1
  po_eq : r.1.po = t.po
  vals_perm : (vals r.1).Perm (val :: (vals t).filter (fun w => address w ≠ address val))
  found_iff : r.2.2 = true ↔ ∃ w ∈ vals t, address w = address val
  size_eq : r.1.size = t.size + if r.2.2 then 0 else 1

/-- `add` on a well-formed node that stores no key twice, of a value below its pin from the node's
order on, returns what `AddResult` states. -/
theorem add_result {t : Pot α} (ht : Wf t) :
    ∀ {x val : α}, t.pin = some x → t.po ≤ cpl (address x).bits (address val).bits →
      ((vals t).map address).Nodup → AddResult t val (add t val (defaultPof n)) := by
  induction ht with
  | @node x bins size tpo size_eq sorted bins_wf bins_po bins_cpl ih =>
    intro x' val hx hfloor hnd
    cases hx
    simp only at hfloor
    have hxne : ∀ v ∈ valsOf bins, address v ≠ address x := by
      intro v hv e
      simp only [vals_mk, Option.toList_some, List.map_append, List.map_cons, List.map_nil,
        List.nodup_append] at hnd
      exact hnd.2.2 (List.mem_map_of_mem _ hv) (by simp [e])
    have hpof := Key.defaultPof_key hfloor
    by_cases hkey : address x = address val
    · -- the pin has `val`'s key and is replaced
      have hc : defaultPof n (address x).bits (address val).bits tpo =
          (cpl (address x).bits (address val).bits, true) := by
        rw [hpof]; simp [hkey]
      have hadd : add ⟨some x, bins, size, tpo⟩ val (defaultPof n) =
          (⟨some val, bins, size, tpo⟩, cpl (address x).bits (address val).bits, true) := by
        simp only [add, hc, ↓reduceIte]
      rw [hadd]
      have hfilter : (valsOf bins ++ [x]).filter (fun w => address w ≠ address val) =
          valsOf bins := by
        rw [List.filter_append, List.filter_eq_self.2 (fun v hv => by simpa [← hkey] using hxne v hv)]
        simp [hkey]
      refine ⟨(Wf.node size_eq sorted bins_wf bins_po bins_cpl).repin hkey.symm, rfl, ?_, ?_,
        by simp⟩
      · rw [vals_mk, vals_mk, Option.toList_some, Option.toList_some, hfilter]
        exact List.perm_append_singleton val _
      · simpa using ⟨x, by simp, hkey⟩
    · -- `val` belongs below the pin, at order `po`
      set po := cpl (address x).bits (address val).bits with hpo
      have hc : defaultPof n (address x).bits (address val).bits tpo = (po, false) := by
        rw [hpof]; simp [hkey]
      have hkeys : ∀ c ∈ bins, c.po ≠ po → ∀ v ∈ vals c, address v ≠ address val :=
        fun c hc' hne v hv => address_ne_of_cpl_ne (x := x) (by rw [bins_cpl c hc' v hv]; exact hne)
      rcases bins_split bins po with ⟨pre, b, post, rfl, hpre, hb⟩ | ⟨pre, post, rfl, hpre, hpost⟩
      · -- descend into the bin `b` at order `po`
        have hbmem : b ∈ pre ++ b :: post := by simp
        obtain ⟨y, hy⟩ := (bins_wf b hbmem).pin_isSome
        have hfloor' : b.po ≤ cpl (address y).bits (address val).bits := by
          have h1 := bins_cpl b hbmem y (pin_mem_vals hy)
          have := min_cpl_le (address y).bits (address x).bits (address val).bits
          rw [cpl_comm (address y).bits, h1, ← hpo, hb] at this
          omega
        have hndb : ((vals b).map address).Nodup :=
          hnd.sublist (by simp [List.map_append])
        have R := ih b hbmem hy hfloor' hndb
        set r := add b val (defaultPof n) with hr
        have hadd : add ⟨some x, pre ++ b :: post, size, tpo⟩ val (defaultPof n) =
            (⟨some x, pre ++ r.1 :: post, if r.2.2 then size else size + 1, tpo⟩, po, r.2.2) := by
          simp [add, hc, addLoop_found val _ hpre hb, hr]
        rw [hadd]
        have hpost : ∀ c ∈ post, b.po < c.po := fun c hc' => po_lt_of_sorted_split sorted hc'
        have hother : ∀ w ∈ valsOf pre ++ (valsOf post ++ [x]), address w ≠ address val := by
          intro w hw
          simp only [List.mem_append, List.mem_singleton, mem_valsOf] at hw
          rcases hw with ⟨c, hc', hw⟩ | ⟨c, hc', hw⟩ | rfl
          · exact hkeys c (by simp [hc']) (hpre c hc').ne w hw
          · exact hkeys c (by simp [hc']) (by have := hpost c hc'; omega) w hw
          · exact hkey
        have hs : (if r.2.2 then size else size + 1) = size + (r.1.size - b.size) := by
          rw [R.size_eq]; split <;> omega
        refine ⟨hs ▸ (Wf.node size_eq sorted bins_wf bins_po bins_cpl).replace_bin R.wf R.po_eq ?_,
          rfl, ?_, ?_, ?_⟩
        · intro v hv
          rcases List.mem_cons.1 (R.vals_perm.mem_iff.1 hv) with rfl | hv
          · exact hb.symm
          · exact bins_cpl b hbmem v (List.mem_of_mem_filter hv)
        · have e1 : vals (⟨some x, pre ++ r.1 :: post, if r.2.2 then size else size + 1, tpo⟩ : Pot α)
              = valsOf pre ++ (vals r.1 ++ (valsOf post ++ [x])) := by simp
          have e2 : (vals (⟨some x, pre ++ b :: post, size, tpo⟩ : Pot α)).filter
              (fun w => address w ≠ address val) = valsOf pre ++
                ((vals b).filter (fun w => address w ≠ address val) ++ (valsOf post ++ [x])) := by
            have h1 := List.filter_eq_self.2 (fun w hw => by
              simpa using hother w (List.mem_append_left _ hw) : ∀ w ∈ valsOf pre,
                decide (address w ≠ address val) = true)
            have h2 := List.filter_eq_self.2 (fun w hw => by
              simpa using hother w (List.mem_append_right _ hw) : ∀ w ∈ valsOf post ++ [x],
                decide (address w ≠ address val) = true)
            simp only [vals_mk, valsOf_append, valsOf_cons, Option.toList_some, List.append_assoc,
              List.filter_append] at h1 h2 ⊢
            rw [h1, h2]
          rw [e1, e2]
          exact ((R.vals_perm.append_right _).append_left _).trans List.perm_middle
        · rw [R.found_iff]
          constructor
          · rintro ⟨w, hw, e⟩; exact ⟨w, by simp [hw], e⟩
          · rintro ⟨w, hw, e⟩
            simp only [vals_mk, valsOf_append, valsOf_cons, Option.toList_some, List.mem_append,
              List.mem_singleton] at hw
            rcases hw with (hw | hw | hw) | rfl
            · exact absurd e (hother w (by simp [hw]))
            · exact ⟨w, hw, e⟩
            · exact absurd e (hother w (by simp [hw]))
            · exact absurd e hkey
        · split <;> simp
      · -- no bin at order `po`: open one
        have hpost' : ∀ c ∈ post, po < c.po := po_lt_of_sorted_head
          (by simp only [List.map_append, List.pairwise_append] at sorted; exact sorted.2.1) hpost
        have hadd : add ⟨some x, pre ++ post, size, tpo⟩ val (defaultPof n) =
            (⟨some x, pre ++ ⟨some val, [], 1, po⟩ :: post, size + 1, tpo⟩, po, false) := by
          simp [add, hc, addLoop_gap val _ hpre hpost]
        rw [hadd]
        have hother : ∀ w ∈ valsOf pre ++ (valsOf post ++ [x]), address w ≠ address val := by
          intro w hw
          simp only [List.mem_append, List.mem_singleton, mem_valsOf] at hw
          rcases hw with ⟨c, hc', hw⟩ | ⟨c, hc', hw⟩ | rfl
          · exact hkeys c (by simp [hc']) (hpre c hc').ne w hw
          · exact hkeys c (by simp [hc']) (hpost' c hc').ne' w hw
          · exact hkey
        refine ⟨(Wf.node size_eq sorted bins_wf bins_po bins_cpl).insert_bin hpre hpost hfloor
          (wf_leaf val po) (by simp), rfl, ?_, ?_, by simp⟩
        · have hfilter := List.filter_eq_self.2 (fun w hw => by simpa using hother w hw :
            ∀ w ∈ valsOf pre ++ (valsOf post ++ [x]), decide (address w ≠ address val) = true)
          simp only [vals_mk, valsOf_append, valsOf_cons, valsOf_nil, Option.toList_some,
            List.nil_append, List.append_assoc, List.singleton_append] at hfilter ⊢
          rw [hfilter]
          exact List.perm_middle
        · simp only [Bool.false_eq_true, false_iff, not_exists, not_and]
          intro w hw
          exact hother w (by simpa [List.append_assoc] using hw)

/-- `Add` keeps the representation invariant of a root. -/
theorem add_valid {t : Pot α} (ht : Valid t) (val : α) : Valid (add t val (defaultPof n)).1 := by
  rcases ht with rfl | ⟨hpo, hwf, hnd⟩
  · exact .inr ⟨rfl, .node (by simp [empty, newPot, sizes]) (by simp) (by simp) (by simp)
      (by simp), by simp [add, empty, newPot]⟩
  · obtain ⟨x, hx⟩ := hwf.pin_isSome
    have R : AddResult t val _ := add_result hwf hx (by rw [hpo]; exact Nat.zero_le _) hnd
    exact .inr ⟨R.po_eq.trans hpo, R.wf, (R.vals_perm.map address).nodup_iff.2
      (nodup_cons_filter hnd val)⟩

/-- On a valid root, `Add` stores `val` under its key and keeps every other key's value. -/
theorem add_lookup {t : Pot α} (ht : Valid t) (val : α) (k : Key n) :
    lookup (add t val (defaultPof n)).1 k = if k = address val then some val else lookup t k := by
  rcases ht with rfl | ⟨hpo, hwf, hnd⟩
  · by_cases h : k = address val
    · simp [add, empty, newPot, lookup, h]
    · simp [add, empty, newPot, lookup, h, Ne.symm h]
  · obtain ⟨x, hx⟩ := hwf.pin_isSome
    have R : AddResult t val _ := add_result hwf hx (by rw [hpo]; exact Nat.zero_le _) hnd
    have hperm : (vals (add t val (defaultPof n)).1).Perm
        ((some val).toList ++ (vals t).filter (fun w => address w ≠ address val)) := R.vals_perm
    rw [lookup_eq_of_perm hperm ((R.vals_perm.map address).nodup_iff.2 (nodup_cons_filter hnd val)),
      find?_update (fun w h => by cases h; rfl), lookup]

/-- `Add` on a valid root, the empty pot included: `found` says whether the pot stored a value with
`val`'s key; the new pot stores `val` and every value of `t` with another key, each once; and it
grows by one unless `found`. -/
theorem Add_spec {t : Pot α} (ht : Valid t) (val : α) :
    ((Add t val (defaultPof n)).2.2 = true ↔ ∃ w ∈ vals t, address w = address val) ∧
      (vals (Add t val (defaultPof n)).1).Perm
        (val :: (vals t).filter (fun w => address w ≠ address val)) ∧
      (Add t val (defaultPof n)).1.size =
        t.size + if (Add t val (defaultPof n)).2.2 then 0 else 1 := by
  rcases ht with rfl | ⟨hpo, hwf, hnd⟩
  · simp [Add, add, empty, newPot]
  · obtain ⟨x, hx⟩ := hwf.pin_isSome
    have R : AddResult t val _ := add_result hwf hx (by rw [hpo]; exact Nat.zero_le _) hnd
    exact ⟨R.found_iff, R.vals_perm, R.size_eq⟩

/-- Adding a key that is there and one that is not, to a pot of two 2-bit keys. -/
theorem Add_spec_two :
    Valid (add (empty : Pot (Key 2)) ⟨[true, false], rfl⟩ (defaultPof 2)).1 ∧
      ((Add (add (empty : Pot (Key 2)) ⟨[true, false], rfl⟩ (defaultPof 2)).1 ⟨[false, true], rfl⟩
        (defaultPof 2)).2.2 = true ↔
        ∃ w ∈ vals (add (empty : Pot (Key 2)) ⟨[true, false], rfl⟩ (defaultPof 2)).1,
          address w = address (⟨[false, true], rfl⟩ : Key 2)) :=
  have ht := add_valid (.inl rfl) _
  ⟨ht, (Add_spec ht _).1⟩

end Swarm.Pot
