import Swarm.Pot.Invariant

/-!
# Removing a value

`remove`, the body of the exported `Remove`, deletes the value with a given key. When the pin has
the key, the pin of the last bin takes its place; otherwise the value is removed recursively from
the bin at its proximity order to the pin. Unlike `add` and `Swap`, `remove` does not test for a
nil pin first: `DefaultPof` finds the empty address of a nil pin equal to every value, so on the
empty pot `remove` goes on to read the last of no bins, `remove_empty_panics`.
-/

namespace Swarm.Pot

variable {α : Type} {n : Nat} [BytesAddress α n]

mutual
/-- `remove`: the pot without `val`, the proximity order at which `val` was last compared, and
whether it was found. A Go panic is an `Except.error` carrying its runtime message. -/
def remove (t : Pot α) (val : α) (pof : Pof) : Except String (Pot α × Nat × Bool) :=
  match t with
  | ⟨pin, bins, size, tpo⟩ =>
    let c := pof (toBytes pin) (address val).bits tpo
    if c.2 then
      if size - 1 = 0 then pure (⟨none, [], 0, 0⟩, c.1, true)
      else
        match bins.getLast? with
        | none => throw "index out of range [-1]"
        | some last => pure (⟨last.pin, bins.dropLast ++ last.bins, size - 1, tpo⟩, tpo, true)
    else do
      match ← removeLoop c.1 val pof bins with
      | none => pure (⟨pin, bins, size, tpo⟩, c.1, false)
      | some (none, i) => pure (⟨pin, bins.take i ++ bins.drop i, size, tpo⟩, c.1, false)
      | some (some (p, po, found), i) =>
        pure (⟨pin, bins.take i ++ (if p.pin.isSome then [p] else []) ++ bins.drop (i + 1),
          if found then size - 1 else size, tpo⟩, po, found)

/-- The `for i < len(t.bins)` loop of `remove`: `none` when a deeper bin comes first (Go's early
`return t, po, false`), otherwise the recursive result for the bin at order `po`, if there is
one, and the index `i` at which the loop stopped. -/
def removeLoop (po : Nat) (val : α) (pof : Pof) :
    List (Pot α) → Except String (Option (Option (Pot α × Nat × Bool) × Nat))
  | [] => pure (some (none, 0))
  | b :: bins =>
    if b.po = po then do
      let r ← remove b val pof
      pure (some (some r, 0))
    else if b.po > po then pure none
    else do
      match ← removeLoop po val pof bins with
      | none => pure none
      | some (r, i) => pure (some (r, i + 1))
end

/-- `Remove`. -/
def Remove (t : Pot α) (val : α) (pof : Pof) : Except String (Pot α × Nat × Bool) :=
  remove t val pof

/-- `remove` on the empty pot panics indexing `bins[-1]`. -/
theorem remove_empty (val : α) (max : Nat) :
    remove (empty : Pot α) val (defaultPof max) = .error "index out of range [-1]" := by
  simp [remove, empty, newPot, toBytes]
  rfl

/-- `Remove` on the empty pot `NewPot(nil, 0)` panics, whatever the value and the key length:
the nil pin compares equal, the size drops to -1, and `t.bins[len(t.bins)-1]` is out of range. -/
theorem remove_empty_panics (val : α) (max : Nat) :
    Remove (empty : Pot α) val (defaultPof max) = .error "index out of range [-1]" :=
  remove_empty val max

/-- The loop of `remove` at a bin at the key's order removes from that bin. -/
theorem removeLoop_found {pre post : List (Pot α)} {b : Pot α} {po : Nat} (val : α) (pof : Pof)
    (hpre : ∀ c ∈ pre, c.po < po) (hb : b.po = po) :
    removeLoop po val pof (pre ++ b :: post) =
      (fun r => some (some r, pre.length)) <$> remove b val pof := by
  induction pre with
  | nil => simp [removeLoop, hb]
  | cons c pre ih =>
    simp only [List.mem_cons, forall_eq_or_imp] at hpre
    cases h : remove b val pof <;>
      simp_all [removeLoop, hpre.1.ne, Nat.not_lt.2 hpre.1.le] <;> rfl

/-- The loop of `remove` with no bin at the key's order finds nothing to remove. -/
theorem removeLoop_gap {pre post : List (Pot α)} {po : Nat} (val : α) (pof : Pof)
    (hpre : ∀ c ∈ pre, c.po < po) (hpost : ∀ c ∈ post.head?, po < c.po) :
    removeLoop po val pof (pre ++ post) =
      pure (if post.isEmpty then some (none, pre.length) else none) := by
  induction pre with
  | nil =>
    cases post with
    | nil => rfl
    | cons c post => simp at hpost; simp [removeLoop, hpost, hpost.ne']
  | cons c pre ih =>
    simp only [List.mem_cons, forall_eq_or_imp] at hpre
    cases post <;> simp_all [removeLoop, hpre.1.ne, Nat.not_lt.2 hpre.1.le]

/-- What `remove` returns on a well-formed node: a well-formed node at the same order, or the
empty pot when nothing is left, holding the values of `t` with keys other than `k`; `found` says
a value with key `k` was there, and the size drops by one when it was. -/
structure RemoveResult (t : Pot α) (k : Key n) (r : Pot α × Nat × Bool) : Prop where
  wf_or_empty : (Wf r.1 ∧ r.1.po = t.po) ∨ r.1 = ⟨none, [], 0, 0⟩
  vals_perm : (vals r.1).Perm ((vals t).filter (fun w => address w ≠ k))
  found_eq : r.2.2 = (lookup t k).isSome
  size_eq : r.1.size = t.size - if r.2.2 then 1 else 0

/-- `remove` on a well-formed node that stores no key twice, of a value below its pin from the
node's order on, returns what `RemoveResult` states. -/
theorem remove_result {t : Pot α} (ht : Wf t) :
    ∀ {x : α} (val : α), t.pin = some x → t.po ≤ cpl (address x).bits (address val).bits →
      ((vals t).map address).Nodup →
      ∃ r, remove t val (defaultPof n) = pure r ∧ RemoveResult t (address val) r := by
  induction ht with
  | @node x bins size tpo size_eq sorted bins_wf bins_po bins_cpl ih =>
    intro x' val hx hfloor hnd
    cases hx
    simp only at hfloor
    have node : Wf ⟨some x, bins, size, tpo⟩ := .node size_eq sorted bins_wf bins_po bins_cpl
    have hpof := Key.defaultPof_key hfloor
    by_cases hkx : address x = address val
    · -- the pin has the key: the last bin's pin takes its place
      have hc : defaultPof n (toBytes (some x)) (address val).bits tpo =
          (cpl (address x).bits (address val).bits, true) := by
        rw [show toBytes (some x) = (address x).bits from rfl, hpof]
        simp [hkx]
      have hout : ∀ w ∈ valsOf bins, address w ≠ address val :=
        fun w hw => hkx ▸ Wf.address_ne_pin rfl hnd hw
      have hlk : lookup ⟨some x, bins, size, tpo⟩ (address val) = some x := lookup_pin hkx hout
      have hfilt : (vals (⟨some x, bins, size, tpo⟩ : Pot α)).filter
          (fun w => address w ≠ address val) = valsOf bins := by
        rw [vals_mk, List.filter_append,
          List.filter_eq_self.2 (fun w hw => by simpa using hout w hw)]
        simp [hkx]
      by_cases hbins : bins = []
      · subst hbins
        obtain rfl : size = 1 := by simpa using size_eq
        exact ⟨(⟨none, [], 0, 0⟩, cpl (address x).bits (address val).bits, true),
          by simp [remove, hc], .inr rfl, by simp [hkx], by simp [hlk], by simp⟩
      · obtain ⟨last, hlast⟩ : ∃ last, bins.getLast? = some last := by
          cases h : bins.getLast? with
          | none => exact absurd (List.getLast?_eq_none_iff.1 h) hbins
          | some last => exact ⟨last, rfl⟩
        have hsplit := List.dropLast_append_getLast? last hlast
        have hs : size - 1 ≠ 0 := by
          have hmem : last ∈ bins := by rw [← hsplit]; simp
          obtain ⟨y, hy⟩ := (bins_wf last hmem).pin_isSome
          have := List.length_pos_of_mem (mem_valsOf.2 ⟨last, hmem, pin_mem_vals hy⟩)
          rw [size_eq, Wf.sizes_eq_length bins_wf]; omega
        refine ⟨(⟨last.pin, bins.dropLast ++ last.bins, size - 1, tpo⟩, tpo, true),
          by simp [remove, hc, hs, hlast], .inl ⟨?_, rfl⟩, ?_, by simp [hlk], by simp⟩
        · rw [← hsplit] at node hnd
          exact node.promote hnd
        · rw [hfilt, ← hsplit, vals_mk, valsOf_append, valsOf_append, valsOf_cons, valsOf_nil,
            vals_eq last]
          simp
    · -- the key lies below the pin, at order `po`
      set po := cpl (address x).bits (address val).bits with hpo
      have hc : defaultPof n (toBytes (some x)) (address val).bits tpo = (po, false) := by
        rw [show toBytes (some x) = (address x).bits from rfl, hpof]
        simp [hkx]
      rcases bins_split bins po with ⟨pre, b, post, rfl, hpre, hb⟩ | ⟨pre, post, rfl, hpre, hpost⟩
      · -- the bin `b` at order `po` holds whatever has the key
        have hbmem : b ∈ pre ++ b :: post := by simp
        obtain ⟨y, hy⟩ := (bins_wf b hbmem).pin_isSome
        have hout := node.not_outside (k := address val) hb hkx
        have hlk : lookup ⟨some x, pre ++ b :: post, size, tpo⟩ (address val) =
            lookup b (address val) := lookup_bin hout
        obtain ⟨⟨p, po', found⟩, hr, R⟩ :=
          ih b hbmem val hy (node.bin_floor hbmem hb hy) (nodup_bin hnd)
        have hrem : remove ⟨some x, pre ++ b :: post, size, tpo⟩ val (defaultPof n) =
            pure (⟨some x, pre ++ ((if p.pin.isSome then [p] else []) ++ post),
              if found then size - 1 else size, tpo⟩, po', found) := by
          simp [remove, hc, removeLoop_found val (defaultPof n) hpre hb, hr]
        rcases R.wf_or_empty with ⟨hpw, hppo⟩ | hpe
        · -- the bin is replaced by what the recursive call returned
          dsimp only at hpw hppo
          obtain ⟨z, hz⟩ := hpw.pin_isSome
          simp only [hz, Option.isSome_some, ↓reduceIte, List.singleton_append] at hrem
          have hwf : Wf ⟨some x, pre ++ p :: post, if found then size - 1 else size, tpo⟩ := by
            have hsz : (if found then size - 1 else size) = size + (p.size - b.size) := by
              rw [R.size_eq]
              cases found <;> simp only [Bool.false_eq_true, ↓reduceIte] <;> omega
            rw [hsz]
            exact node.replace_bin hpw hppo fun v hv =>
              bins_cpl b hbmem v (List.mem_of_mem_filter (R.vals_perm.mem_iff.1 hv))
          refine ⟨_, hrem, .inl ⟨hwf, rfl⟩, ?_, R.found_eq.trans (by rw [hlk]),
            by cases found <;> simp⟩
          exact (vals_bin_perm size tpo).trans ((R.vals_perm.append_right _).trans
            (filter_vals_bin_perm size tpo hout).symm)
        · -- the bin empties and is dropped
          dsimp only at hpe
          subst hpe
          have hbs := (bins_wf b hbmem).size_pos
          have hsz := R.size_eq
          obtain ⟨rfl, hb1⟩ : found = true ∧ b.size = 1 := by
            cases found <;> simp at hsz ⊢ <;> omega
          simp only [Option.isSome_none, Bool.false_eq_true, if_false, List.nil_append,
            if_true] at hrem
          refine ⟨_, hrem, .inl ⟨hb1 ▸ node.erase_bin, rfl⟩, ?_,
            R.found_eq.trans (by rw [hlk]), by simp⟩
          have hnil : (vals b).filter (fun w => address w ≠ address val) = [] := by
            simpa using R.vals_perm.symm
          refine ((filter_vals_bin_perm (size - 1) tpo hout).trans ?_).symm
          rw [hnil, List.nil_append]
      · -- no bin at order `po`: nothing has the key and the node stays
        have hout := node.not_gap hpre hpost hkx
        have hlk : lookup ⟨some x, pre ++ post, size, tpo⟩ (address val) = none := lookup_gap hout
        have hrem : remove ⟨some x, pre ++ post, size, tpo⟩ val (defaultPof n) =
            pure (⟨some x, pre ++ post, size, tpo⟩, po, false) := by
          have hloop := removeLoop_gap val (defaultPof n) hpre hpost
          cases post <;> simp at hloop <;> simp [remove, hc, hloop]
        refine ⟨_, hrem, .inl ⟨node, rfl⟩, ?_, by simp [hlk], by simp⟩
        rw [filter_key_ne_eq_self (fun w hw => hout w (by simpa using hw))]

/-- `Remove` on a valid root. On the empty pot it panics, since the nil pin compares equal to
`val`. On every other valid root it removes the value with `val`'s key, if there is one: `found`
says whether there was, and the pot it returns is a valid root holding every other value of `t`,
its size one less when `found`. -/
theorem Remove_spec {t : Pot α} (ht : Valid t) (val : α) :
    (t = empty ∧ Remove t val (defaultPof n) = .error "index out of range [-1]") ∨
      (t ≠ empty ∧ ∃ r po found, Remove t val (defaultPof n) = .ok (r, po, found) ∧ Valid r ∧
        (found = true ↔ ∃ w ∈ vals t, address w = address val) ∧
        (vals r).Perm ((vals t).filter (fun w => address w ≠ address val)) ∧
        r.size = t.size - if found then 1 else 0) := by
  rcases ht with rfl | ⟨hpo, hwf, hnd⟩
  · exact .inl ⟨rfl, remove_empty val n⟩
  · obtain ⟨x, hx⟩ := hwf.pin_isSome
    obtain ⟨⟨r, po, found⟩, hr, R⟩ :=
      remove_result hwf val hx (by rw [hpo]; exact Nat.zero_le _) hnd
    refine .inr ⟨fun h => by simp [h, empty, newPot] at hx, r, po, found, hr, ?_, ?_,
      R.vals_perm, R.size_eq⟩
    · rcases R.wf_or_empty with ⟨hrw, hrpo⟩ | hre
      · exact .inr ⟨hrpo.trans hpo, hrw,
          (R.vals_perm.map address).nodup_iff.2 (hnd.sublist ((List.filter_sublist _).map _))⟩
      · exact .inl hre
    · rw [show found = (lookup t (address val)).isSome from R.found_eq, lookup, List.find?_isSome]
      simp

/-- Removing the one key of a pot of 2-bit keys succeeds. -/
theorem Remove_spec_one :
    Valid (newPot (some (⟨[true, false], rfl⟩ : Key 2)) 0) ∧
      ∃ r po found, Remove (newPot (some (⟨[true, false], rfl⟩ : Key 2)) 0) ⟨[true, false], rfl⟩
        (defaultPof 2) = .ok (r, po, found) := by
  have ht : Valid (newPot (some (⟨[true, false], rfl⟩ : Key 2)) 0) :=
    .inr ⟨rfl, wf_leaf _ 0, by simp [newPot]⟩
  refine ⟨ht, ?_⟩
  rcases Remove_spec ht ⟨[true, false], rfl⟩ with ⟨h, -⟩ | ⟨-, r, po, found, h, -⟩
  · exact absurd (congrArg Pot.size h) (by decide)
  · exact ⟨r, po, found, h⟩

end Swarm.Pot
