import Swarm.Pot.Basic

/-!
# Keeping the representation invariant

The operations of pot/pot.go change a well-formed node in five ways: they replace its pin by a
value with the same key, replace one bin, insert a bin, drop a bin, or promote the pin of the last
bin when the node's own pin goes. This module proves once that each of these keeps `Wf`, so that
the proofs about `add`, `remove` and `Swap` only check the side conditions.
-/

namespace Swarm.Pot

variable {α : Type} {n : Nat} [BytesAddress α n]

/-- The pin of a node is one of its values. -/
theorem pin_mem_vals {t : Pot α} {x : α} (hx : t.pin = some x) : x ∈ vals t := by
  cases t; simp_all

/-- Values at different proximity orders from one pin have different keys. -/
theorem address_ne_of_cpl_ne {x v w : α}
    (h : cpl (address x).bits (address v).bits ≠ cpl (address x).bits (address w).bits) :
    address v ≠ address w := fun e => h (by rw [e])

/-- Replacing every value with `val`'s key by `val` keeps the keys distinct. -/
theorem nodup_cons_filter {l : List α} (hl : (l.map address).Nodup) (val : α) :
    ((val :: l.filter (fun w => address w ≠ address val)).map address).Nodup := by
  refine List.nodup_cons.2 ⟨?_, hl.sublist ((List.filter_sublist _).map _)⟩
  simp only [List.mem_map, List.mem_filter, not_exists, not_and]
  intro w hw e; simp [e] at hw

/-- In a sorted split around the bin `b`, the bins after `b` lie deeper than it. -/
theorem po_lt_of_sorted_split {pre post : List (Pot α)} {b c : Pot α}
    (hs : ((pre ++ b :: post).map Pot.po).Pairwise (· < ·)) (hc : c ∈ post) : b.po < c.po := by
  simp only [List.map_append, List.map_cons, List.pairwise_append, List.pairwise_cons,
    List.mem_map] at hs
  exact hs.2.1.1 c.po ⟨c, hc, rfl⟩

/-- In a sorted list whose first bin lies above `po`, every bin does. -/
theorem po_lt_of_sorted_head {post : List (Pot α)} {po : Nat}
    (hs : (post.map Pot.po).Pairwise (· < ·)) (hh : ∀ c ∈ post.head?, po < c.po) :
    ∀ c ∈ post, po < c.po := by
  cases post with
  | nil => simp
  | cons d post =>
    simp only [List.head?_cons, Option.mem_def, Option.some.injEq, forall_eq'] at hh
    simp only [List.map_cons, List.pairwise_cons, List.mem_map] at hs
    intro c hc
    rcases List.mem_cons.1 hc with rfl | hc
    · exact hh
    · exact hh.trans (hs.1 c.po ⟨c, hc, rfl⟩)

/-- Storing `new` under `k` in place of the values with key `k` keeps the keys distinct. -/
theorem nodup_update {l : List α} {k : Key n} {new : Option α} (hl : (l.map address).Nodup)
    (hnew : ∀ w, new = some w → address w = k) :
    ((new.toList ++ l.filter (fun w => address w ≠ k)).map address).Nodup := by
  cases new with
  | none => exact hl.sublist ((List.filter_sublist _).map _)
  | some val => rw [← hnew val rfl]; exact nodup_cons_filter hl val

/-- The single-value bin opened for a value at order `po`. -/
theorem wf_leaf (val : α) (po : Nat) : Wf (⟨some val, [], 1, po⟩ : Pot α) :=
  .node (by simp) (by simp) (by simp) (by simp) (by simp)

namespace Wf

variable {x : α} {pre post bins : List (Pot α)} {b : Pot α} {size : Int} {po : Nat}

/-- A well-formed node has a positive size. -/
theorem size_pos {t : Pot α} (h : Wf t) : 0 < t.size := by
  obtain ⟨x, hx⟩ := h.pin_isSome
  rw [h.size_eq_length]
  exact_mod_cast List.length_pos_of_mem (pin_mem_vals hx)

/-- A value with the pin's key may take its place. -/
theorem repin {y : α} (h : Wf ⟨some x, bins, size, po⟩) (hy : address y = address x) :
    Wf ⟨some y, bins, size, po⟩ := by
  cases h with
  | node size_eq sorted bins_wf bins_po bins_cpl =>
    exact .node size_eq sorted bins_wf bins_po (fun c hc v hv => hy ▸ bins_cpl c hc v hv)

/-- A bin may be replaced by a well-formed bin at the same order whose values keep their
proximity order to the pin. -/
theorem replace_bin {b' : Pot α} (h : Wf ⟨some x, pre ++ b :: post, size, po⟩) (hb' : Wf b')
    (hpo : b'.po = b.po) (hcpl : ∀ v ∈ vals b', cpl (address x).bits (address v).bits = b.po) :
    Wf ⟨some x, pre ++ b' :: post, size + (b'.size - b.size), po⟩ := by
  cases h with
  | node size_eq sorted bins_wf bins_po bins_cpl =>
    refine .node ?_ (by simpa [hpo] using sorted) ?_ ?_ ?_
    · simp only [sizes_append, sizes_cons] at size_eq ⊢; omega
    · intro c hc
      simp only [List.mem_append, List.mem_cons] at hc
      rcases hc with hc | rfl | hc
      · exact bins_wf c (by simp [hc])
      · exact hb'
      · exact bins_wf c (by simp [hc])
    · intro c hc
      simp only [List.mem_append, List.mem_cons] at hc
      rcases hc with hc | rfl | hc
      · exact bins_po c (by simp [hc])
      · rw [hpo]; exact bins_po b (by simp)
      · exact bins_po c (by simp [hc])
    · intro c hc
      simp only [List.mem_append, List.mem_cons] at hc
      rcases hc with hc | rfl | hc
      · exact bins_cpl c (by simp [hc])
      · rw [hpo]; exact hcpl
      · exact bins_cpl c (by simp [hc])

/-- A bin may be dropped. -/
theorem erase_bin (h : Wf ⟨some x, pre ++ b :: post, size, po⟩) :
    Wf ⟨some x, pre ++ post, size - b.size, po⟩ := by
  cases h with
  | node size_eq sorted bins_wf bins_po bins_cpl =>
    have hsub : pre ++ post ⊆ pre ++ b :: post := by
      intro c hc; simp only [List.mem_append, List.mem_cons] at hc ⊢; tauto
    refine .node ?_ (sorted.sublist ?_) (fun c hc => bins_wf c (hsub hc))
      (fun c hc => bins_po c (hsub hc)) (fun c hc => bins_cpl c (hsub hc))
    · simp only [sizes_append, sizes_cons] at size_eq ⊢; omega
    · exact ((List.sublist_cons_self b post).append_left pre).map _

/-- A well-formed bin may be inserted between the bins below and above its order. -/
theorem insert_bin (h : Wf ⟨some x, pre ++ post, size, po⟩) (hpre : ∀ c ∈ pre, c.po < b.po)
    (hpost : ∀ c ∈ post.head?, b.po < c.po) (hlo : po ≤ b.po) (hb : Wf b)
    (hcpl : ∀ v ∈ vals b, cpl (address x).bits (address v).bits = b.po) :
    Wf ⟨some x, pre ++ b :: post, size + b.size, po⟩ := by
  cases h with
  | node size_eq sorted bins_wf bins_po bins_cpl =>
    have hpost' : ∀ c ∈ post, b.po < c.po := po_lt_of_sorted_head
      (by simp only [List.map_append, List.pairwise_append] at sorted; exact sorted.2.1) hpost
    refine .node ?_ ?_ ?_ ?_ ?_
    · simp only [sizes_append, sizes_cons] at size_eq ⊢; omega
    · simp only [List.map_append, List.pairwise_append, List.map_cons, List.pairwise_cons,
        List.mem_map, List.mem_cons] at sorted ⊢
      refine ⟨sorted.1, ⟨?_, sorted.2.1⟩, ?_⟩
      · rintro _ ⟨c, hc, rfl⟩; exact hpost' c hc
      · rintro _ ⟨c, hc, rfl⟩ _ (rfl | ⟨d, hd, rfl⟩)
        · exact hpre c hc
        · exact sorted.2.2 _ ⟨c, hc, rfl⟩ _ ⟨d, hd, rfl⟩
    · intro c hc
      simp only [List.mem_append, List.mem_cons] at hc
      rcases hc with hc | rfl | hc
      · exact bins_wf c (by simp [hc])
      · exact hb
      · exact bins_wf c (by simp [hc])
    · intro c hc
      simp only [List.mem_append, List.mem_cons] at hc
      rcases hc with hc | rfl | hc
      · exact bins_po c (by simp [hc])
      · exact hlo
      · exact bins_po c (by simp [hc])
    · intro c hc
      simp only [List.mem_append, List.mem_cons] at hc
      rcases hc with hc | rfl | hc
      · exact bins_cpl c (by simp [hc])
      · exact hcpl
      · exact bins_cpl c (by simp [hc])

/-- The pin of a node and the values below it have different keys. -/
theorem address_ne_pin {t : Pot α} (hx : t.pin = some x) (hnd : ((vals t).map address).Nodup)
    {v : α} (hv : v ∈ valsOf t.bins) : address v ≠ address x := by
  obtain ⟨pin, bins, size, po⟩ := t
  cases hx
  intro e
  simp only [vals_mk, Option.toList_some, List.map_append, List.map_cons, List.map_nil,
    List.nodup_append] at hnd
  exact hnd.2.2 (List.mem_map_of_mem _ hv) (by simp [e])

/-- The bins of a bin lie strictly deeper than it: the bin's pin and every value below it leave
the node's pin at the same bit, so they share that bit as well. -/
theorem bin_bins_po {t : Pot α} (h : Wf t) (hx : t.pin = some x)
    (hnd : ((vals t).map address).Nodup) {b c : Pot α} (hb : b ∈ t.bins) (hc : c ∈ b.bins) :
    b.po < c.po := by
  have hbw := h.bin hb
  obtain ⟨y, hy⟩ := hbw.pin_isSome
  obtain ⟨w, hw⟩ := (hbw.bin hc).pin_isSome
  have hwb : w ∈ vals b := by
    obtain ⟨pin, bins, size, po⟩ := b
    simp only [vals_mk, List.mem_append, mem_valsOf]
    exact .inl ⟨c, hc, pin_mem_vals hw⟩
  have hxy := h.bin_cpl hx hb (pin_mem_vals hy)
  have hxw := h.bin_cpl hx hb hwb
  have hyw := hbw.bin_cpl hy hc (pin_mem_vals hw)
  have hne : address x ≠ address y := fun e =>
    address_ne_pin hx hnd (mem_valsOf.2 ⟨b, hb, pin_mem_vals hy⟩) e.symm
  rw [← hyw]
  exact Key.lt_cpl hxy hxw (hxy ▸ Key.cpl_lt hne)

/-- When the pin goes, the pin of the last bin takes its place and that bin's own bins join the
node's: the promotion `remove` and `Swap` perform. -/
theorem promote {init : List (Pot α)} {last : Pot α} (h : Wf ⟨some x, init ++ [last], size, po⟩)
    (hnd : ((vals (⟨some x, init ++ [last], size, po⟩ : Pot α)).map address).Nodup) :
    Wf ⟨last.pin, init ++ last.bins, size - 1, po⟩ := by
  have hlast := h.bin (b := last) (by simp)
  have hlpo := h.bin_po (b := last) (by simp)
  have hdeep : ∀ c ∈ last.bins, last.po < c.po := fun c hc => h.bin_bins_po rfl hnd (by simp) hc
  obtain ⟨y, hy⟩ := hlast.pin_isSome
  obtain ⟨pin, lbins, lsize, lpo⟩ := last
  cases hy
  cases hlast with
  | node lsize_eq lsorted lbins_wf lbins_po lbins_cpl =>
  cases h with
  | node size_eq sorted bins_wf bins_po bins_cpl =>
  simp only at hlpo hdeep
  have hinit : ∀ c ∈ init, c.po < lpo := by
    simp only [List.map_append, List.map_cons, List.map_nil, List.pairwise_append, List.mem_map,
      List.mem_singleton] at sorted
    intro c hc; exact sorted.2.2 _ ⟨c, hc, rfl⟩ _ rfl
  have hxy : cpl (address x).bits (address y).bits = lpo :=
    bins_cpl ⟨some y, lbins, lsize, lpo⟩ (by simp) y (by simp)
  refine .node ?_ ?_ ?_ ?_ ?_
  · simp only [sizes_append, sizes_cons, sizes_nil] at size_eq ⊢; omega
  · simp only [List.map_append, List.pairwise_append, List.mem_map] at sorted ⊢
    refine ⟨sorted.1, lsorted, ?_⟩
    rintro _ ⟨a, ha, rfl⟩ _ ⟨c, hc, rfl⟩
    exact (hinit a ha).trans (hdeep c hc)
  · intro c hc
    rcases List.mem_append.1 hc with hc | hc
    · exact bins_wf c (by simp [hc])
    · exact lbins_wf c hc
  · intro c hc
    rcases List.mem_append.1 hc with hc | hc
    · exact bins_po c (by simp [hc])
    · exact hlpo.trans (hdeep c hc).le
  · intro c hc v hv
    rcases List.mem_append.1 hc with hc | hc
    · -- `v` leaves `x` above `y`, so it leaves `y` where it leaves `x`
      have h1 := bins_cpl c (by simp [hc]) v hv
      have h2 : cpl (address v).bits (address y).bits = cpl (address v).bits (address x).bits :=
        cpl_eq_of_lt (by rw [cpl_comm, h1, hxy]; exact hinit c hc)
      rw [cpl_comm, h2, cpl_comm, h1]
    · exact lbins_cpl c hc v hv

/-- Below a well-formed node, a key at order `b.po` from the pin is stored in the bin `b` or
nowhere: every value outside `b`, the pin included, has another key. -/
theorem not_outside {k : Key n} (h : Wf ⟨some x, pre ++ b :: post, size, po⟩)
    (hb : b.po = cpl (address x).bits k.bits) (hk : address x ≠ k) :
    ∀ w ∈ valsOf pre ++ (valsOf post ++ [x]), address w ≠ k := by
  have hkey : ∀ c ∈ pre ++ b :: post, c.po ≠ b.po → ∀ w ∈ vals c, address w ≠ k :=
    fun c hc hne w hw e => hne (by rw [← h.bin_cpl rfl hc hw, e, hb])
  cases h with
  | node _ sorted _ _ _ =>
  intro w hw
  simp only [List.mem_append, List.mem_singleton, mem_valsOf] at hw
  rcases hw with ⟨c, hc, hw⟩ | ⟨c, hc, hw⟩ | rfl
  · refine hkey c (by simp [hc]) (Nat.ne_of_lt ?_) w hw
    simp only [List.map_append, List.map_cons, List.pairwise_append, List.mem_map,
      List.mem_cons] at sorted
    exact sorted.2.2 _ ⟨c, hc, rfl⟩ _ (.inl rfl)
  · exact hkey c (by simp [hc]) (Nat.ne_of_gt (po_lt_of_sorted_split sorted hc)) w hw
  · exact hk

/-- Below a well-formed node with no bin at the order of key `k` from the pin, no value has key
`k`. -/
theorem not_gap {k : Key n} (h : Wf ⟨some x, pre ++ post, size, po⟩)
    (hpre : ∀ c ∈ pre, c.po < cpl (address x).bits k.bits)
    (hpost : ∀ c ∈ post.head?, cpl (address x).bits k.bits < c.po) (hk : address x ≠ k) :
    ∀ w ∈ valsOf pre ++ (valsOf post ++ [x]), address w ≠ k := by
  have hkey : ∀ c ∈ pre ++ post, c.po ≠ cpl (address x).bits k.bits → ∀ w ∈ vals c,
      address w ≠ k :=
    fun c hc hne w hw e => hne (by rw [← h.bin_cpl rfl hc hw, e])
  cases h with
  | node _ sorted _ _ _ =>
  have hpost' := po_lt_of_sorted_head
    (by simp only [List.map_append, List.pairwise_append] at sorted; exact sorted.2.1) hpost
  intro w hw
  simp only [List.mem_append, List.mem_singleton, mem_valsOf] at hw
  rcases hw with ⟨c, hc, hw⟩ | ⟨c, hc, hw⟩ | rfl
  · exact hkey c (by simp [hc]) (Nat.ne_of_lt (hpre c hc)) w hw
  · exact hkey c (by simp [hc]) (Nat.ne_of_gt (hpost' c hc)) w hw
  · exact hk

/-- The bin at the order of key `k` from the pin lies at or above that order from its own pin. -/
theorem bin_floor {y : α} {k : Key n} (h : Wf ⟨some x, bins, size, po⟩) (hb : b ∈ bins)
    (hbk : b.po = cpl (address x).bits k.bits) (hy : b.pin = some y) :
    b.po ≤ cpl (address y).bits k.bits := by
  have h1 := h.bin_cpl rfl hb (pin_mem_vals hy)
  have := min_cpl_le (address y).bits (address x).bits k.bits
  rw [cpl_comm (address y).bits, h1, ← hbk] at this
  omega

end Wf

/-! ## The value stored under a key -/

/-- `find?` of a key that no value has finds nothing. -/
theorem find?_key_eq_none {l : List α} {k : Key n} (h : ∀ w ∈ l, address w ≠ k) :
    l.find? (fun v => address v = k) = none :=
  List.find?_eq_none.2 (fun w hw => by simpa using h w hw)

/-- A list with distinct keys is the value under `k`, if any, followed by the rest. -/
theorem perm_find?_filter {k : Key n} : ∀ {l : List α}, (l.map address).Nodup →
    l.Perm ((l.find? (fun v => address v = k)).toList ++ l.filter (fun w => address w ≠ k))
  | [], _ => by simp
  | a :: l, hnd => by
    rw [List.map_cons, List.nodup_cons] at hnd
    by_cases ha : address a = k
    · have hl : l.filter (fun w => !decide (address w = k)) = l :=
        List.filter_eq_self.2 (fun w hw => by
          simpa [← ha] using fun e => hnd.1 (List.mem_map.2 ⟨w, hw, e⟩))
      simp [ha, hl]
    · simpa [ha] using ((perm_find?_filter hnd.2).cons a).trans List.perm_middle.symm

/-- The stored values of a pot with distinct keys are its value under `k`, if any, and the values
with other keys. -/
theorem vals_perm_lookup {t : Pot α} (k : Key n) (hnd : ((vals t).map address).Nodup) :
    (vals t).Perm ((lookup t k).toList ++ (vals t).filter (fun w => address w ≠ k)) :=
  perm_find?_filter hnd

/-- In a list with distinct keys, the value found under `k` is the one member with key `k`. -/
theorem find?_key_eq_some {l : List α} {k : Key n} {v : α} (hnd : (l.map address).Nodup) :
    l.find? (fun w => address w = k) = some v ↔ v ∈ l ∧ address v = k := by
  refine ⟨fun h => ⟨List.mem_of_find?_eq_some h, by simpa using List.find?_some h⟩, ?_⟩
  rintro ⟨hv, rfl⟩
  have hsome : (l.find? (fun w => address w = address v)).isSome :=
    List.find?_isSome.2 ⟨v, hv, by simp⟩
  obtain ⟨w, hw⟩ := Option.isSome_iff_exists.1 hsome
  rw [hw, List.inj_on_of_nodup_map hnd (List.mem_of_find?_eq_some hw) hv
    (by simpa using List.find?_some hw)]

/-- A valid pot stores no key twice. -/
theorem Valid.nodup {t : Pot α} (ht : Valid t) : ((vals t).map address).Nodup := by
  rcases ht with rfl | ⟨-, -, hnd⟩
  · simp
  · exact hnd

/-- A valid pot finds each value it stores under the value's key. -/
theorem lookup_of_mem {t : Pot α} (ht : Valid t) {v : α} (hv : v ∈ vals t) :
    lookup t (address v) = some v :=
  (find?_key_eq_some ht.nodup).2 ⟨hv, rfl⟩

/-- The value stored under a key depends only on the stored values, not on their order. -/
theorem lookup_eq_of_perm {t : Pot α} {l : List α} (h : (vals t).Perm l)
    (hnd : ((vals t).map address).Nodup) (k : Key n) :
    lookup t k = l.find? (fun w => address w = k) :=
  Option.ext fun v => by
    rw [Option.mem_def, Option.mem_def, lookup, find?_key_eq_some hnd, find?_key_eq_some ((h.map address).nodup_iff.1 hnd),
      h.mem_iff]

/-- After `new` takes the place of the values with key `k`, key `k` finds `new` and every other
key finds what it found before. -/
theorem find?_update {l : List α} {k k' : Key n} {new : Option α}
    (hnew : ∀ w, new = some w → address w = k) :
    (new.toList ++ l.filter (fun w => address w ≠ k)).find? (fun w => address w = k') =
      if k' = k then new else l.find? (fun w => address w = k') := by
  by_cases h : k' = k
  · subst h
    cases new <;> simp_all
  · have hp : (fun (w : α) => !decide (address w = k) && decide (address w = k')) =
        fun w => decide (address w = k') :=
      funext fun w => by by_cases e : address w = k' <;> simp [e, h]
    cases new <;> simp_all [Ne.symm h]

/-- Looking up the pin's key finds the pin, when no bin holds that key. -/
theorem lookup_pin {x : α} {bins : List (Pot α)} {size : Int} {po : Nat} {k : Key n}
    (hx : address x = k) (hbins : ∀ w ∈ valsOf bins, address w ≠ k) :
    lookup ⟨some x, bins, size, po⟩ k = some x := by
  simp [lookup, List.find?_append, find?_key_eq_none hbins, hx]

/-- Looking up a key that only the bin `b` holds is looking it up in `b`. -/
theorem lookup_bin {x : α} {pre post : List (Pot α)} {b : Pot α} {size : Int} {po : Nat}
    {k : Key n} (hout : ∀ w ∈ valsOf pre ++ (valsOf post ++ [x]), address w ≠ k) :
    lookup ⟨some x, pre ++ b :: post, size, po⟩ k = lookup b k := by
  have h1 := find?_key_eq_none (fun w hw => hout w (List.mem_append_left _ hw))
  have h2 := find?_key_eq_none (fun w hw => hout w (List.mem_append_right _ hw))
  simp only [lookup, vals_mk, valsOf_append, valsOf_cons, Option.toList_some, List.append_assoc,
    List.find?_append] at h1 h2 ⊢
  rw [h1, h2]; simp

/-- Looking up a key that neither the pin nor any bin holds finds nothing. -/
theorem lookup_gap {x : α} {pre post : List (Pot α)} {size : Int} {po : Nat} {k : Key n}
    (hout : ∀ w ∈ valsOf pre ++ (valsOf post ++ [x]), address w ≠ k) :
    lookup ⟨some x, pre ++ post, size, po⟩ k = none :=
  find?_key_eq_none (fun w hw => hout w (by simpa [List.append_assoc] using hw))

/-! ## A node around one of its bins -/

section Around

variable {x : α} {pre post : List (Pot α)} {b : Pot α} {size size' : Int} {po po' : Nat}

/-- Leaving out the values with a key that none has leaves them all. -/
theorem filter_key_ne_eq_self {l : List α} {k : Key n} (h : ∀ w ∈ l, address w ≠ k) :
    l.filter (fun w => address w ≠ k) = l :=
  List.filter_eq_self.2 (fun w hw => by simpa using h w hw)

/-- The values of a node are those of one of its bins and those of the node without it. -/
theorem vals_bin_perm (size' : Int) (po' : Nat) :
    (vals (⟨some x, pre ++ b :: post, size, po⟩ : Pot α)).Perm
      (vals b ++ vals (⟨some x, pre ++ post, size', po'⟩ : Pot α)) := by
  simpa using List.perm_append_comm_assoc (valsOf pre) (vals b) (valsOf post ++ [x])

/-- When no value outside the bin `b` has key `k`, the values with other keys are those of `b`
and all of the node without `b`. -/
theorem filter_vals_bin_perm (size' : Int) (po' : Nat) {k : Key n}
    (hout : ∀ w ∈ valsOf pre ++ (valsOf post ++ [x]), address w ≠ k) :
    ((vals (⟨some x, pre ++ b :: post, size, po⟩ : Pot α)).filter (fun w => address w ≠ k)).Perm
      ((vals b).filter (fun w => address w ≠ k) ++
        vals (⟨some x, pre ++ post, size', po'⟩ : Pot α)) := by
  refine ((vals_bin_perm size' po').filter _).trans ?_
  rw [List.filter_append, filter_key_ne_eq_self (l := vals (⟨some x, pre ++ post, size', po'⟩ : Pot α))
    (fun w hw => hout w (by simpa using hw))]

/-- A bin of a node that stores no key twice stores no key twice. -/
theorem nodup_bin (hnd : ((vals (⟨some x, pre ++ b :: post, size, po⟩ : Pot α)).map address).Nodup) :
    ((vals b).map address).Nodup :=
  hnd.sublist (by simp)

end Around

end Swarm.Pot
