import Swarm.Pot.Add

/-!
# Swap

`Swap` looks up the value with a given key and replaces it by what an update callback returns:
nil removes it, the same value leaves the pot as it is, another value takes its place. Go's
callbacks are closures with effects of their own (`On` sets a flag in its callback, `Off` panics
in one), so the model runs the callback in a monad `m`, and `Swap`'s own panics are exceptions of
`m`. The main results are `swap_bind`, that `Swap` calls the callback once, on the value stored
under the key, and `swap_pure`, what it returns for each value the callback may give.
-/

namespace Swarm.Pot

variable {α : Type} {n : Nat} [BytesAddress α n] [DecidableEq α]

/-- What `Swap` returns: the new pot (`none` is Go's nil), the proximity order, `found` and
`change`. -/
abbrev SwapResult (α : Type) := Option (Pot α) × Nat × Bool × Bool

section Model

variable {m : Type → Type} [Monad m] [MonadExceptOf String m]

mutual
/-- `Swap`. Values are compared with `=`, which stands for Go's interface comparison `val ==
t.pin`. -/
def swap (t : Pot α) (k : Key n) (pof : Pof) (f : Option α → m (Option α)) : m (SwapResult α) :=
  match t with
  | ⟨none, _, _, tpo⟩ => do
    match ← f none with
    | none => pure (none, 0, false, false)
    | some val => pure (some (newPot (some val) tpo), 0, false, true)
  | ⟨some pin, bins, size, tpo⟩ =>
    let c := pof k.bits (address pin).bits tpo
    if c.2 then do
      match ← f (some pin) with
      | none =>
        if size - 1 = 0 then pure (some ⟨none, [], 0, tpo⟩, c.1, true, true)
        else
          match bins.getLast? with
          | none => throw "index out of range [-1]"
          | some last =>
            pure (some ⟨last.pin, bins.dropLast ++ last.bins, size - 1, tpo⟩, c.1, true, true)
      | some val =>
        if val = pin then pure (some ⟨some pin, bins, size, tpo⟩, c.1, true, false)
        else pure (some ⟨some val, bins, size, tpo⟩, c.1, true, true)
    else do
      match ← swapAt k pof f c.1 bins with
      | (some (b, p, po, found, change), i) =>
        if !change then pure (some ⟨some pin, bins, size, tpo⟩, po, found, false)
        else
          match p with
          | none => throw "invalid memory address or nil pointer dereference"
          | some p =>
            if p.size = 0 then
              pure (some ⟨some pin, bins.take i ++ bins.drop (i + 1), size - 1, tpo⟩,
                po, found, true)
            else
              pure (some ⟨some pin, bins.take i ++ p :: bins.drop (i + 1),
                size + (p.size - b.size), tpo⟩, po, found, true)
      | (none, i) =>
        match ← f none with
        | none => pure (some ⟨some pin, bins, size, tpo⟩, c.1, false, false)
        | some val =>
          if !(pof (address val).bits k.bits c.1).2 then throw "invalid value"
          else
            pure (some ⟨some pin, bins.take i ++ ⟨some val, [], 1, c.1⟩ :: bins.drop i,
              size + 1, tpo⟩, c.1, false, true)

/-- `t.getPos(po)` followed, when it finds a bin, by `Swap`'s recursive call on that bin: the
bin with what the call returned, and the index. -/
def swapAt (k : Key n) (pof : Pof) (f : Option α → m (Option α)) (po : Nat) :
    List (Pot α) → m (Option (Pot α × SwapResult α) × Nat)
  | [] => pure (none, 0)
  | b :: bins =>
    if po > b.po then do
      let r ← swapAt k pof f po bins
      pure (r.1, r.2 + 1)
    else if po < b.po then pure (none, 0)
    else do
      let r ← swap b k pof f
      pure (some (b, r), 0)
end

end Model

section Lawful

variable {m : Type → Type} [Monad m] [LawfulMonad m] [MonadExceptOf String m]

/-- The bin search of `Swap` at a bin at the key's order swaps in that bin. -/
theorem swapAt_found {pre post : List (Pot α)} {b : Pot α} {po : Nat} (k : Key n) (pof : Pof)
    (f : Option α → m (Option α)) (hpre : ∀ c ∈ pre, c.po < po) (hb : b.po = po) :
    swapAt k pof f po (pre ++ b :: post) =
      (fun r => (some (b, r), pre.length)) <$> swap b k pof f := by
  induction pre with
  | nil => simp [swapAt, hb]
  | cons c pre ih =>
    simp only [List.mem_cons, forall_eq_or_imp] at hpre
    simp [swapAt, hpre.1, ih hpre.2]

/-- The bin search of `Swap` with no bin at the key's order finds the gap. -/
theorem swapAt_gap {pre post : List (Pot α)} {po : Nat} (k : Key n) (pof : Pof)
    (f : Option α → m (Option α)) (hpre : ∀ c ∈ pre, c.po < po)
    (hpost : ∀ c ∈ post.head?, po < c.po) :
    swapAt k pof f po (pre ++ post) = pure (none, pre.length) := by
  induction pre with
  | nil =>
    cases post with
    | nil => rfl
    | cons c post => simp at hpost; simp [swapAt, hpost, Nat.not_lt.2 hpost.le]
  | cons c pre ih =>
    simp only [List.mem_cons, forall_eq_or_imp] at hpre
    simp [swapAt, hpre.1, ih hpre.2]

/-- The pot `Swap` returns on a well-formed node `t` when the callback gives `new`, nil or a
value with the key `k`. It sits at `t`'s order, is well formed or empty, holds `new` and the
values of `t` with other keys, has the size that follows, and is `t` itself when `new` is the
value already stored under `k`. -/
structure SwapPot (t : Pot α) (k : Key n) (new : Option α) (r : Pot α) : Prop where
  po_eq : r.po = t.po
  wf_or_empty : Wf r ∨ r = ⟨none, [], 0, t.po⟩
  vals_perm : (vals r).Perm (new.toList ++ (vals t).filter (fun w => address w ≠ k))
  size_eq : r.size = t.size - (if (lookup t k).isSome then 1 else 0) + (if new.isSome then 1 else 0)
  unchanged : new = lookup t k → r = t

omit [DecidableEq α] in
/-- Storing back the value already under `k` leaves a well-formed node as it is. -/
theorem SwapPot.self {t : Pot α} {k : Key n} {new : Option α} (ht : Wf t)
    (hnd : ((vals t).map address).Nodup) (h : new = lookup t k) : SwapPot t k new t :=
  ⟨rfl, .inl ht, h ▸ vals_perm_lookup k hnd, by simp [h], fun _ => rfl⟩

/-- `Swap` on a well-formed node that stores no key twice, with a callback that returns a value with
the key or nothing, returns what `SwapPot` states. -/
theorem swap_pure {t : Pot α} (ht : Wf t) :
    ∀ {x : α} (k : Key n) (new : Option α), t.pin = some x →
      t.po ≤ cpl (address x).bits k.bits → ((vals t).map address).Nodup →
      (∀ w, new = some w → address w = k) →
      ∃ r po, swap t k (defaultPof n) (fun _ => (pure new : m (Option α))) =
          pure (some r, po, (lookup t k).isSome, decide (new ≠ lookup t k)) ∧
        SwapPot t k new r := by
  induction ht with
  | @node x bins size tpo size_eq sorted bins_wf bins_po bins_cpl ih =>
    intro x' k new hx hfloor hnd hnew
    cases hx
    simp only at hfloor
    have node : Wf ⟨some x, bins, size, tpo⟩ := .node size_eq sorted bins_wf bins_po bins_cpl
    have hpof : defaultPof n k.bits (address x).bits tpo = (_, decide (k = address x)) :=
      Key.defaultPof_key (by rwa [cpl_comm])
    by_cases hkx : address x = k
    · -- the pin is the value stored under `k`
      have hc : defaultPof n k.bits (address x).bits tpo =
          (cpl k.bits (address x).bits, true) := by rw [hpof]; simp [hkx]
      have hout : ∀ w ∈ valsOf bins, address w ≠ k := fun w hw => hkx ▸ Wf.address_ne_pin rfl hnd hw
      have hlk : lookup ⟨some x, bins, size, tpo⟩ k = some x := lookup_pin hkx hout
      have hfilt : (vals (⟨some x, bins, size, tpo⟩ : Pot α)).filter (fun w => address w ≠ k) =
          valsOf bins := by
        rw [vals_mk, List.filter_append,
          List.filter_eq_self.2 (fun w hw => by simpa using hout w hw)]
        simp [hkx]
      rw [hlk]
      cases new with
      | none =>
        by_cases hbins : bins = []
        · subst hbins
          obtain rfl : size = 1 := by simpa using size_eq
          exact ⟨⟨none, [], 0, tpo⟩, cpl k.bits (address x).bits, by simp [swap, hc],
            ⟨rfl, .inr rfl, by simp [hkx], by simp [hlk], by simp [hlk]⟩⟩
        · obtain ⟨last, hlast⟩ : ∃ last, bins.getLast? = some last := by
            cases h : bins.getLast? with
            | none => exact absurd (List.getLast?_eq_none_iff.1 h) hbins
            | some last => exact ⟨last, rfl⟩
          have hsplit := List.dropLast_append_getLast? last hlast
          have hs : size - 1 ≠ 0 := by
            have hmem : last ∈ bins := by rw [← hsplit]; simp
            obtain ⟨y, hy⟩ := (bins_wf last hmem).pin_isSome
            have := List.length_pos_of_mem (mem_valsOf.2 ⟨last, hmem, pin_mem_vals hy⟩)
            rw [size_eq, Wf.sizes_eq_length bins_wf]; omega
          refine ⟨⟨last.pin, bins.dropLast ++ last.bins, size - 1, tpo⟩, cpl k.bits (address x).bits,
            by simp [swap, hc, hs, hlast], ⟨rfl, .inl ?_, ?_, by simp [hlk], by simp [hlk]⟩⟩
          · rw [← hsplit] at node hnd
            exact node.promote hnd
          · rw [hfilt]
            have : vals (⟨last.pin, bins.dropLast ++ last.bins, size - 1, tpo⟩ : Pot α) =
                valsOf bins := by
              rw [← hsplit, vals_mk, valsOf_append, valsOf_append, valsOf_cons, valsOf_nil,
                vals_eq last]
              simp
            simp [this]
      | some val =>
        have hval : address val = k := hnew val rfl
        by_cases hvx : val = x
        · refine ⟨_, cpl k.bits (address x).bits, by simp [swap, hc, hvx],
            ⟨rfl, .inl node, ?_, by simp [hlk], fun _ => rfl⟩⟩
          rw [hfilt, vals_mk, hvx]
          exact List.perm_append_comm
        · refine ⟨⟨some val, bins, size, tpo⟩, cpl k.bits (address x).bits, by simp [swap, hc, hvx],
            ⟨rfl, .inl (node.repin (hval.trans hkx.symm)), ?_, by simp [hlk],
              fun h => absurd (Option.some.inj (h.trans hlk)) hvx⟩⟩
          rw [hfilt, vals_mk]
          exact List.perm_append_comm
    · -- the key lies below the pin, at order `po`
      set po := cpl (address x).bits k.bits with hpo
      have hc : defaultPof n k.bits (address x).bits tpo = (po, false) := by
        rw [hpof, cpl_comm]; simp [Ne.symm hkx]
      rcases bins_split bins po with ⟨pre, b, post, rfl, hpre, hb⟩ | ⟨pre, post, rfl, hpre, hpost⟩
      · -- the bin `b` at order `po` holds whatever is stored under `k`
        have hbmem : b ∈ pre ++ b :: post := by simp
        obtain ⟨y, hy⟩ := (bins_wf b hbmem).pin_isSome
        have hout := node.not_outside hb hkx
        have hlk : lookup ⟨some x, pre ++ b :: post, size, tpo⟩ k = lookup b k := lookup_bin hout
        obtain ⟨r, po', hr, R⟩ := ih b hbmem k new hy (node.bin_floor hbmem hb hy) (nodup_bin hnd) hnew
        have hrun : swapAt k (defaultPof n) (fun _ => (pure new : m (Option α))) _
            (pre ++ b :: post) = _ := swapAt_found k (defaultPof n) _ hpre hb
        by_cases hch : new = lookup b k
        · have hdec : decide (new ≠ lookup b k) = false := by simp [hch]
          exact ⟨_, po', by simp [swap, hc, hrun, hr, hdec, hlk],
            SwapPot.self node hnd (hch.trans hlk.symm)⟩
        have hdec : decide (new ≠ lookup b k) = true := by simp [hch]
        by_cases hz : r.size = 0
        · -- the bin empties and is dropped
          have hre : r = ⟨none, [], 0, b.po⟩ :=
            R.wf_or_empty.resolve_left (fun h => by have := h.size_pos; omega)
          have hbs := (bins_wf b hbmem).size_pos
          have hsz := R.size_eq
          obtain ⟨rfl, hfound, hb1⟩ : new = none ∧ (lookup b k).isSome ∧ b.size = 1 := by
            cases new <;> cases h : (lookup b k).isSome <;> simp [h] at hsz ⊢ <;> omega
          refine ⟨⟨some x, pre ++ post, size - 1, tpo⟩, po', by simp [swap, hc, hrun, hr, hdec, hz, hlk],
            ⟨rfl, .inl (hb1 ▸ node.erase_bin), ?_, by simp [hlk, hfound], fun h => absurd (h.trans hlk) hch⟩⟩
          have hnil : (vals b).filter (fun w => address w ≠ k) = [] := by
            simpa [hre] using R.vals_perm.symm
          rw [Option.toList_none, List.nil_append]
          refine ((filter_vals_bin_perm (size - 1) tpo hout).trans ?_).symm
          rw [hnil, List.nil_append]
        · -- the bin is replaced by the one the recursive call returned
          have hrw : Wf r := R.wf_or_empty.resolve_right (fun h => hz (by rw [h]))
          refine ⟨⟨some x, pre ++ r :: post, size + (r.size - b.size), tpo⟩, po',
            by simp [swap, hc, hrun, hr, hdec, hz, hlk], ⟨rfl, .inl ?_, ?_, ?_, fun h => absurd (h.trans hlk) hch⟩⟩
          · refine node.replace_bin hrw R.po_eq (fun v hv => ?_)
            rcases List.mem_append.1 (R.vals_perm.mem_iff.1 hv) with hv | hv
            · rw [hnew v (Option.mem_toList.1 hv), hb]
            · exact bins_cpl b hbmem v (List.mem_of_mem_filter hv)
          · refine (vals_bin_perm size tpo).trans ((R.vals_perm.append_right _).trans ?_)
            rw [List.append_assoc]
            exact (filter_vals_bin_perm (b := b) size tpo hout).symm.append_left _
          · simp only [R.size_eq, hlk]; omega
      · -- no bin at order `po`: nothing is stored under `k`
        have hout := node.not_gap hpre hpost hkx
        have hlk : lookup ⟨some x, pre ++ post, size, tpo⟩ k = none := lookup_gap hout
        have hrun := swapAt_gap k (defaultPof n) (fun _ => (pure new : m (Option α))) hpre hpost
        cases new with
        | none => exact ⟨_, po, by simp [swap, hc, hrun, hlk], SwapPot.self node hnd hlk.symm⟩
        | some val =>
          have hval : address val = k := hnew val rfl
          have hchk : defaultPof n (address val).bits k.bits po = (n, true) := by
            rw [hval, Key.defaultPof_key (show po ≤ cpl k.bits k.bits by
              rw [cpl_self, k.length_bits]; exact Key.cpl_le _ _)]
            simp [k.length_bits]
          refine ⟨⟨some x, pre ++ ⟨some val, [], 1, po⟩ :: post, size + 1, tpo⟩, po,
            by simp [swap, hc, hrun, hchk, hlk], ⟨rfl, .inl ?_, ?_, by simp [hlk], by simp [hlk]⟩⟩
          · exact node.insert_bin hpre hpost hfloor (wf_leaf val po) (by simp [hval])
          · rw [filter_key_ne_eq_self (l := vals (⟨some x, pre ++ post, size, tpo⟩ : Pot α))
              (fun w hw => hout w (by simpa using hw))]
            exact vals_bin_perm size tpo

/-- `Swap` on a well-formed node calls the callback once, on the value stored under `k`, and then
goes on as if the callback had been the constant function returning what it returned. -/
theorem swap_bind {t : Pot α} (ht : Wf t) :
    ∀ {x : α} (k : Key n) (f : Option α → m (Option α)), t.pin = some x →
      t.po ≤ cpl (address x).bits k.bits → ((vals t).map address).Nodup →
      swap t k (defaultPof n) f =
        f (lookup t k) >>= fun new => swap t k (defaultPof n) (fun _ => pure new) := by
  induction ht with
  | @node x bins size tpo size_eq sorted bins_wf bins_po bins_cpl ih =>
    intro x' k f hx hfloor hnd
    cases hx
    simp only at hfloor
    have node : Wf ⟨some x, bins, size, tpo⟩ := .node size_eq sorted bins_wf bins_po bins_cpl
    have hpof : defaultPof n k.bits (address x).bits tpo = (_, decide (k = address x)) :=
      Key.defaultPof_key (by rwa [cpl_comm])
    by_cases hkx : address x = k
    · have hc : defaultPof n k.bits (address x).bits tpo =
          (cpl k.bits (address x).bits, true) := by rw [hpof]; simp [hkx]
      have hout : ∀ w ∈ valsOf bins, address w ≠ k := fun w hw => hkx ▸ Wf.address_ne_pin rfl hnd hw
      simp [swap, hc, lookup_pin hkx hout]
    · have hc : defaultPof n k.bits (address x).bits tpo = (cpl (address x).bits k.bits, false) := by
        rw [hpof, cpl_comm]; simp [Ne.symm hkx]
      rcases bins_split bins (cpl (address x).bits k.bits) with
        ⟨pre, b, post, rfl, hpre, hb⟩ | ⟨pre, post, rfl, hpre, hpost⟩
      · have hbmem : b ∈ pre ++ b :: post := by simp
        obtain ⟨y, hy⟩ := (bins_wf b hbmem).pin_isSome
        have hlk : lookup ⟨some x, pre ++ b :: post, size, tpo⟩ k = lookup b k :=
          lookup_bin (node.not_outside hb hkx)
        have hb' := ih b hbmem k f hy (node.bin_floor hbmem hb hy) (nodup_bin hnd)
        simp [swap, hc, swapAt_found _ _ _ hpre hb, hb', hlk]
      · have hlk : lookup ⟨some x, pre ++ post, size, tpo⟩ k = none :=
          lookup_gap (node.not_gap hpre hpost hkx)
        simp [swap, hc, swapAt_gap _ _ _ hpre hpost, hlk]

/-! ## Roots -/

/-- What `Swap` with a constant callback `new` returns on a valid root `t`. It comes back nil only
from the empty pot with nothing to store; otherwise it is a valid root that stores `new` under `k`
and what `t` stored under every other key, and `t` itself when `new` is what `t` stored under
`k`. -/
structure SwapRoot (t : Pot α) (k : Key n) (new : Option α) (r : Option (Pot α)) : Prop where
  nil : r = none → t = empty ∧ new = none
  valid : ∀ r', r = some r' → Valid r'
  lookup_eq : ∀ r', r = some r' → ∀ k', lookup r' k' = if k' = k then new else lookup t k'
  unchanged : new = lookup t k → t.pin.isSome → r = some t

/-- `Swap` on a valid root, with a callback that returns a value with the key or nothing, returns
what `SwapRoot` states. -/
theorem swap_root {t : Pot α} (ht : Valid t) (k : Key n) (new : Option α)
    (hnew : ∀ w, new = some w → address w = k) :
    ∃ r po, swap t k (defaultPof n) (fun _ => (pure new : m (Option α))) =
        pure (r, po, (lookup t k).isSome, decide (new ≠ lookup t k)) ∧ SwapRoot t k new r := by
  rcases ht with rfl | ⟨hpo, hwf, hnd⟩
  · have hlk : lookup (⟨none, [], 0, 0⟩ : Pot α) k = none := rfl
    cases new with
    | none => exact ⟨none, 0, by simp [swap, empty, newPot, hlk], ⟨fun _ => ⟨rfl, rfl⟩, by simp,
        by simp, by simp [empty, newPot]⟩⟩
    | some val =>
      refine ⟨some (newPot (some val) 0), 0, by simp [swap, empty, newPot, hlk],
        ⟨by simp, ?_, ?_, by simp [empty, newPot]⟩⟩
      · rintro _ ⟨⟩
        exact .inr ⟨rfl, wf_leaf val 0, by simp [newPot]⟩
      · rintro _ ⟨⟩ k'
        by_cases h : k' = k
        · simp [newPot, lookup, hnew val rfl, h]
        · simp [newPot, lookup, hnew val rfl, h, Ne.symm h]
  · obtain ⟨x, hx⟩ := hwf.pin_isSome
    obtain ⟨r, po, hr, R⟩ := swap_pure (m := m) hwf k new hx (by rw [hpo]; exact Nat.zero_le _) hnd hnew
    have hndr := (R.vals_perm.map address).nodup_iff.2 (nodup_update hnd hnew)
    refine ⟨some r, po, hr, ⟨by simp, ?_, ?_, fun h _ => congrArg some (R.unchanged h)⟩⟩
    · rintro _ ⟨⟩
      rcases R.wf_or_empty with hr | rfl
      · exact .inr ⟨R.po_eq.trans hpo, hr, hndr⟩
      · exact .inl (by rw [hpo]; rfl)
    · rintro _ ⟨⟩ k'
      rw [lookup_eq_of_perm R.vals_perm hndr, find?_update hnew, lookup]

/-- On a valid root `Swap` calls the callback once, on the value stored under `k`. -/
theorem swap_bind_root {t : Pot α} (ht : Valid t) (k : Key n) (f : Option α → m (Option α)) :
    swap t k (defaultPof n) f =
      f (lookup t k) >>= fun new => swap t k (defaultPof n) (fun _ => pure new) := by
  rcases ht with rfl | ⟨hpo, hwf, hnd⟩
  · simp [swap, empty, newPot, lookup]
  · obtain ⟨x, hx⟩ := hwf.pin_isSome
    exact swap_bind hwf k f hx (by rw [hpo]; exact Nat.zero_le _) hnd

end Lawful

/-! ## Swap with a pure update -/

/-- A pure update `f` run as `Swap`'s callback, recording each value it is called on. -/
def recordCalls (f : Option α → Option α) (v : Option α) :
    StateT (List (Option α)) (Except String) (Option α) := do
  modify (· ++ [v])
  pure (f v)

/-- `Swap` on a valid root with an update `f` whose values have the key `k`: it calls `f` once,
on the value `old` stored under `k`; `found` says `old` is there and `change` that `f old`
differs from it; the pot it returns holds `f old` and the values of `t` with other keys, with the
size that follows. It returns nil exactly on the empty pot with `f nil` nil, and otherwise `t`
itself when nothing changes. -/
theorem Swap_spec {t : Pot α} (ht : Valid t) (k : Key n) (f : Option α → Option α)
    (hf : ∀ v w, f v = some w → address w = k) :
    ∃ r po, (swap t k (defaultPof n) (recordCalls f)).run [] =
        .ok ((r, po, (lookup t k).isSome, decide (f (lookup t k) ≠ lookup t k)), [lookup t k]) ∧
      (∀ r', r = some r' → Valid r' ∧
        (vals r').Perm ((f (lookup t k)).toList ++ (vals t).filter (fun w => address w ≠ k))) ∧
      (r.map Pot.size).getD 0 = t.size - (if (lookup t k).isSome then 1 else 0) +
        (if (f (lookup t k)).isSome then 1 else 0) ∧
      (r = none ↔ t = empty ∧ f (lookup t k) = none) ∧
      (f (lookup t k) = lookup t k → t ≠ empty → r = some t) := by
  rw [swap_bind_root ht k]
  have hrun : ∀ (res : SwapResult α),
      swap t k (defaultPof n) (fun _ => (pure (f (lookup t k)) :
        StateT (List (Option α)) (Except String) (Option α))) = pure res →
      (recordCalls f (lookup t k) >>= fun new => swap t k (defaultPof n) fun _ => pure new).run [] =
        .ok (res, [lookup t k]) := fun res h => by
    simp [recordCalls, h]
    rfl
  rcases ht with rfl | ⟨hpo, hwf, hnd⟩
  · have hlk : lookup (empty : Pot α) k = none := rfl
    rw [hlk] at hrun ⊢
    cases hnew : f none with
    | none => exact ⟨none, 0, hrun _ (by simp [swap, empty, newPot, hnew]), by simp,
        by simp [empty, newPot], by simp [hnew], fun _ h => absurd rfl h⟩
    | some val =>
      refine ⟨some (newPot (some val) 0), 0, hrun _ (by simp [swap, empty, newPot, hnew]),
        ?_, by simp [newPot, empty], by simp [hnew], by simp⟩
      rintro _ ⟨⟩
      exact ⟨.inr ⟨rfl, wf_leaf val 0, by simp [newPot]⟩, by simp [newPot, empty]⟩
  · obtain ⟨x, hx⟩ := hwf.pin_isSome
    obtain ⟨r, po, hr, R⟩ := swap_pure (m := StateT (List (Option α)) (Except String)) hwf k
      (f (lookup t k)) hx (by rw [hpo]; exact Nat.zero_le _) hnd (hf _)
    have hndr := (R.vals_perm.map address).nodup_iff.2 (nodup_update hnd (hf _))
    refine ⟨some r, po, hrun _ hr, ?_, by simpa using R.size_eq,
      ⟨(nomatch ·), fun ⟨he, _⟩ => by simp [he, empty, newPot] at hx⟩,
      fun h _ => congrArg some (R.unchanged h)⟩
    rintro _ ⟨⟩
    refine ⟨?_, R.vals_perm⟩
    rcases R.wf_or_empty with hr' | rfl
    · exact .inr ⟨R.po_eq.trans hpo, hr', hndr⟩
    · exact .inl (by rw [hpo]; rfl)

/-- Storing a new key next to the one key of a pot of 2-bit keys. -/
theorem Swap_spec_insert :
    Valid (add (empty : Pot (Key 2)) ⟨[true, false], rfl⟩ (defaultPof 2)).1 ∧
      (∀ v (w : Key 2), (fun _ => some ⟨[false, true], rfl⟩ : Option (Key 2) → Option (Key 2)) v =
        some w → address w = ⟨[false, true], rfl⟩) ∧
      ∃ r po, (swap (add (empty : Pot (Key 2)) ⟨[true, false], rfl⟩ (defaultPof 2)).1
          ⟨[false, true], rfl⟩ (defaultPof 2) (recordCalls fun _ => some ⟨[false, true], rfl⟩)).run
          [] = .ok ((r, po, false, true), [none]) :=
  have ht := add_valid (.inl rfl) _
  have hf : ∀ v (w : Key 2), (fun _ => some ⟨[false, true], rfl⟩ :
      Option (Key 2) → Option (Key 2)) v = some w → address w = ⟨[false, true], rfl⟩ :=
    fun _ _ h => (Option.some.inj h).symm
  let ⟨r, po, h, _⟩ := Swap_spec ht _ _ hf
  ⟨ht, hf, r, po, h⟩

/-! ## The unchecked pin replacement

`Swap` checks the key of a new value only where it inserts it into a gap between bins. When the
key is the pin's, it stores whatever the update returns in the pin's place, over the pin's bins. -/

omit [DecidableEq α] in
/-- A pot whose values include two with one key is not valid. -/
theorem not_valid_of_dup {r : Pot α} {v w : α} {bins : List (Pot α)}
    (hr : vals r = valsOf bins ++ [w])
    (hv : v ∈ valsOf bins) (hvw : address w = address v) : ¬ Valid r := fun h => by
  have hnd := h.nodup
  rw [hr, List.map_append, List.nodup_append] at hnd
  exact hnd.2.2 (List.mem_map_of_mem _ hv) (by simp [hvw])

/-- On a valid root with pin `x`, `Swap` at `x`'s key puts the value `w` the update returns in
place of `x` with no check on `w`'s key. When `w` has the key of a value `v` below the pin, the
pot returned stores two values with that key, and is not valid. -/
theorem swap_pin_unchecked {t : Pot α} (ht : Valid t) {x v w : α} (hx : t.pin = some x)
    (hv : v ∈ valsOf t.bins) (f : Option α → Option α) (hw : f (some x) = some w)
    (hvw : address w = address v) :
    (swap t (address x) (defaultPof n) (recordCalls f)).run [] =
        .ok ((some ⟨some w, t.bins, t.size, t.po⟩, n, true, true), [some x]) ∧
      ¬ Valid (⟨some w, t.bins, t.size, t.po⟩ : Pot α) := by
  refine ⟨?_, not_valid_of_dup (vals_mk _ _ _ _) hv hvw⟩
  obtain ⟨pin, bins, size, po⟩ := t
  cases hx
  have hpo : po = 0 := by
    rcases ht with h | h
    · cases h
    · exact h.1
  have hwx : w ≠ x := fun e => Wf.address_ne_pin rfl ht.nodup hv (e ▸ hvw).symm
  subst hpo
  simp [swap, recordCalls, Key.defaultPof_key (Nat.zero_le _), hw, hwx, Key.cpl_eq_iff.2 rfl,
    Key.length_bits]
  rfl

/-- Two-bit keys `00` and `01`, and a `Swap` at `00` whose callback returns `01`: no panic, and the
pot holds `01` twice. -/
theorem swap_pin_unchecked_two_bits :
    (swap (add (add (empty : Pot (Key 2)) ⟨[false, false], rfl⟩ (defaultPof 2)).1
        ⟨[false, true], rfl⟩ (defaultPof 2)).1 ⟨[false, false], rfl⟩ (defaultPof 2)
        (recordCalls fun _ => some ⟨[false, true], rfl⟩)).run [] =
      .ok ((some ⟨some ⟨[false, true], rfl⟩, [⟨some ⟨[false, true], rfl⟩, [], 1, 1⟩], 2, 0⟩, 2,
        true, true), [some ⟨[false, false], rfl⟩]) ∧
    ¬ Valid (⟨some ⟨[false, true], rfl⟩, [⟨some ⟨[false, true], rfl⟩, [], 1, 1⟩], 2, 0⟩ :
      Pot (Key 2)) := by
  have ht : Valid (add (add (empty : Pot (Key 2)) ⟨[false, false], rfl⟩ (defaultPof 2)).1
      ⟨[false, true], rfl⟩ (defaultPof 2)).1 := add_valid (add_valid (.inl rfl) _) _
  exact swap_pin_unchecked ht (x := ⟨[false, false], rfl⟩) (v := ⟨[false, true], rfl⟩) rfl
    (by decide) _ rfl rfl

end Swarm.Pot
