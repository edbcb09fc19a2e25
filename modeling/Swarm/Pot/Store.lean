import Mathlib.Data.Finmap
import Swarm.Pot.Remove
import Swarm.Pot.Swap

/-!
# A pot is a finite map

Clients hold a pot through a `*Pot` and replace it by what each call returns, as
network/kademlia.go does with its conns and addrs. This module runs a sequence of `Add`, `Remove`
and `Swap` calls on such a pointer (`run`) and relates it to what a pot is for: a finite map
from keys to values (`Store`), on which every call is a point update (`Op.apply`). The pot a
root denotes is the map of its stored values by key (`toStore`).

A run from a valid root goes through exactly when it never calls `Remove` on the empty pot, which
panics, and never asks `Swap` to store nothing in it, which returns nil (`Safe`). A run that
goes through ends at a valid root that denotes the map the abstract calls compute, with as many
values as the map has keys (`run_refines`). `Swap`'s callbacks carry the precondition of its doc
comment, that what they return has the key they are called for (`KeyedUpdate`).
-/

namespace Swarm.Pot

variable {α : Type} {n : Nat} [BytesAddress α n] [DecidableEq α]

/-- A `Swap` callback whose non-nil results have the key it is called for. -/
structure KeyedUpdate (α : Type) (n : Nat) [BytesAddress α n] where
  key : Key n
  f : Option α → Option α
  keyed : ∀ v w, f v = some w → address w = key

/-- A call on a pot. -/
inductive Op (α : Type) (n : Nat) [BytesAddress α n] where
  | add (val : α)
  | remove (val : α)
  | swap (u : KeyedUpdate α n)

/-- One call on a `*Pot`, which the caller replaces by the pot returned. A nil pointer panics at
the first read of its pin. -/
def step : Option (Pot α) → Op α n → Except String (Option (Pot α))
  | none, _ => throw "invalid memory address or nil pointer dereference"
  | some t, .add val => pure (some (Add t val (defaultPof n)).1)
  | some t, .remove val => (fun r => some r.1) <$> Remove t val (defaultPof n)
  | some t, .swap u => (·.1) <$> swap t u.key (defaultPof n) fun v => pure (u.f v)

/-- The calls made in turn; a panic ends the run. -/
def run (t : Option (Pot α)) (ops : List (Op α n)) : Except String (Option (Pot α)) :=
  ops.foldlM step t

/-- A run of no operations returns the pot it starts from. -/
theorem run_nil (t : Option (Pot α)) : run t ([] : List (Op α n)) = .ok t := rfl

/-- A run of operations is the first step, then the run from the pot it returns. -/
theorem run_cons (t : Option (Pot α)) (op : Op α n) (ops : List (Op α n)) :
    run t (op :: ops) = step t op >>= fun t' => run t' ops := rfl

/-- After a call returns nil, the run panics at the next call or ends at nil. -/
theorem run_none : ∀ (ops : List (Op α n)) (t' : Pot α), run none ops ≠ .ok (some t')
  | [], _, h => by cases h
  | _ :: _, _, h => by cases h

/-! ## The map a pot denotes -/

/-- A finite map from keys to values. -/
abbrev Store (α : Type) (n : Nat) := Finmap fun _ : Key n => α

/-- The map a pot denotes: each stored value under its key. -/
def toStore (t : Pot α) : Store α n := ((vals t).map fun v => ⟨address v, v⟩).toFinmap

/-- The map with `new` under `k`, the key erased when `new` is none. -/
def Store.set (m : Store α n) (k : Key n) : Option α → Store α n
  | none => m.erase k
  | some w => m.insert k w

/-- What a call does to the map: a point update at the call's key. -/
def Op.apply (m : Store α n) : Op α n → Store α n
  | .add val => m.insert (address val) val
  | .remove val => m.erase (address val)
  | .swap u => m.set u.key (u.f (m.lookup u.key))

/-- The calls that leave no valid root: `Remove`, and a `Swap` that stores nothing, on the empty
map. -/
def Op.Hazard (m : Store α n) : Op α n → Prop
  | .add _ => False
  | .remove _ => m = ∅
  | .swap u => m = ∅ ∧ u.f none = none

instance (m : Store α n) (op : Op α n) : Decidable (op.Hazard m) := by
  cases op <;> unfold Op.Hazard <;> infer_instance

/-- The calls made in turn on a map, none of them a hazard on the map it is made on. -/
def Safe : Store α n → List (Op α n) → Prop
  | _, [] => True
  | m, op :: ops => ¬ op.Hazard m ∧ Safe (op.apply m) ops

instance decSafe : ∀ (m : Store α n) (ops : List (Op α n)), Decidable (Safe m ops)
  | _, [] => isTrue trivial
  | m, op :: ops =>
    have := decSafe (op.apply m) ops
    inferInstanceAs (Decidable (¬ op.Hazard m ∧ Safe (op.apply m) ops))

omit [BytesAddress α n] [DecidableEq α] in
/-- A point update at `k` changes the value under `k` and no other. -/
theorem lookup_point (m m' : Store α n) (k : Key n) (new : Option α)
    (h : ∀ k', m'.lookup k' = if k' = k then new else m.lookup k') : m' = m.set k new := by
  refine Finmap.ext_lookup fun k' => ?_
  rw [h k']
  by_cases hk : k' = k
  · subst hk
    cases new <;> simp [Store.set, Finmap.lookup_erase, Finmap.lookup_insert]
  · cases new <;> simp [Store.set, hk, Finmap.lookup_erase_ne hk, Finmap.lookup_insert_of_ne _ hk]

omit [DecidableEq α] in
/-- Looking a key up in the map of a list of values finds the first value with that key. -/
theorem dlookup_map_address (k : Key n) :
    ∀ l : List α, ((l.map fun v => (⟨address v, v⟩ : Σ _ : Key n, α)).dlookup k) =
      l.find? fun v => address v = k
  | [] => rfl
  | v :: l => by
    by_cases h : address v = k
    · subst h
      simp [List.dlookup_cons_eq]
    · rw [List.map_cons, List.dlookup_cons_ne _ _ (Ne.symm h), dlookup_map_address k l]
      simp [h]

omit [DecidableEq α] in
@[simp] theorem lookup_toStore (t : Pot α) (k : Key n) : (toStore t).lookup k = lookup t k := by
  rw [toStore, Finmap.dlookup_list_toFinmap, dlookup_map_address, lookup]

omit [DecidableEq α] in
/-- A key is in the map of a pot exactly when a value of the pot has it. -/
theorem mem_toStore {t : Pot α} {k : Key n} :
    k ∈ toStore t ↔ ∃ v ∈ vals t, address v = k := by
  rw [← Finmap.lookup_isSome, lookup_toStore, lookup, List.find?_isSome]
  simp

omit [DecidableEq α] in
/-- A valid root denotes the empty map exactly when it is the empty pot. -/
theorem toStore_eq_empty {t : Pot α} (ht : Valid t) : toStore t = ∅ ↔ t = empty := by
  constructor
  · intro h
    rcases ht with rfl | ⟨-, hwf, -⟩
    · rfl
    · obtain ⟨x, hx⟩ := hwf.pin_isSome
      have : address x ∈ toStore t := mem_toStore.2 ⟨x, pin_mem_vals hx, rfl⟩
      rw [h] at this
      exact absurd this (Finmap.not_mem_empty)
  · rintro rfl
    exact Finmap.toFinmap_nil

omit [DecidableEq α] in
/-- A valid root stores as many values as its map has keys. -/
theorem size_eq_card_keys {t : Pot α} (ht : Valid t) : t.size = (toStore t).keys.card := by
  have hkeys : (toStore t).keys = ((vals t).map address).toFinset :=
    Finset.ext fun k => by simp [Finmap.mem_keys, mem_toStore]
  have hlen : t.size = (vals t).length := by
    rcases ht with rfl | ⟨-, hwf, -⟩
    · rfl
    · exact hwf.size_eq_length
  rw [hkeys, List.card_toFinset, ht.nodup.dedup, List.length_map, hlen]

/-! ## One call -/

section Step

variable {t : Pot α}

/-- `Add` on a valid pot returns a valid pot whose map is the point update. -/
theorem step_add (ht : Valid t) (val : α) :
    ∃ t', step (some t) (.add val) = .ok (some t') ∧ Valid t' ∧
      toStore t' = (Op.add val).apply (toStore t) :=
  ⟨_, rfl, add_valid ht val, lookup_point _ _ _ (some val) fun k => by
    rw [lookup_toStore, lookup_toStore]
    exact add_lookup ht val k⟩

omit [DecidableEq α] in
/-- `Remove` on a valid root other than the empty pot: a valid root without the value under
`val`'s key. -/
theorem remove_lookup (ht : Valid t) (hne : t ≠ empty) (val : α) :
    ∃ r, Remove t val (defaultPof n) = .ok r ∧ Valid r.1 ∧
      ∀ k, lookup r.1 k = if k = address val then none else lookup t k := by
  rcases ht with rfl | ⟨hpo, hwf, hnd⟩
  · exact absurd rfl hne
  · obtain ⟨x, hx⟩ := hwf.pin_isSome
    obtain ⟨r, hr, R⟩ := remove_result hwf val hx (by rw [hpo]; exact Nat.zero_le _) hnd
    have hndr :=
      (R.vals_perm.map address).nodup_iff.2 (hnd.sublist ((List.filter_sublist _).map _))
    refine ⟨r, hr, ?_, fun k => ?_⟩
    · rcases R.wf_or_empty with ⟨hrw, hrpo⟩ | hre
      · exact .inr ⟨hrpo.trans hpo, hrw, hndr⟩
      · exact .inl hre
    · rw [lookup_eq_of_perm R.vals_perm hndr, lookup]
      exact find?_update fun _ (h : (none : Option α) = some _) => nomatch h

/-- `Remove` on a valid pot returns a valid pot whose map is the point update, or panics on the
empty pot. -/
theorem step_remove (ht : Valid t) (val : α) :
    (¬ (Op.remove val).Hazard (toStore t) →
      ∃ t', step (some t) (.remove val) = .ok (some t') ∧ Valid t' ∧
        toStore t' = (Op.remove val).apply (toStore t)) ∧
    ((Op.remove val).Hazard (toStore t) →
      step (some t) (.remove val) = .error "index out of range [-1]") := by
  refine ⟨fun h => ?_, fun h => ?_⟩
  · obtain ⟨r, hr, hrv, hlk⟩ := remove_lookup ht (mt (toStore_eq_empty ht).2 h) val
    refine ⟨r.1, by simp [step, hr], hrv, lookup_point _ _ _ none fun k => ?_⟩
    rw [lookup_toStore, lookup_toStore]
    exact hlk k
  · rw [(toStore_eq_empty ht).1 h]
    simp [step, Remove, remove_empty]

/-- `Swap` on a valid pot returns a valid pot whose map is the point update, or nil when it stores
nothing in the empty pot. -/
theorem step_swap (ht : Valid t) (u : KeyedUpdate α n) :
    (¬ (Op.swap u).Hazard (toStore t) → ∃ t', step (some t) (.swap u) = .ok (some t') ∧
      Valid t' ∧ toStore t' = (Op.swap u).apply (toStore t)) ∧
    ((Op.swap u).Hazard (toStore t) → step (some t) (.swap u) = .ok none) := by
  refine ⟨fun h => ?_, fun ⟨he, hf⟩ => ?_⟩
  · obtain ⟨r, po, hr, R⟩ := swap_root (m := Except String) ht u.key (u.f (lookup t u.key))
      (u.keyed _)
    have hstep : step (some t) (.swap u) = .ok r := by
      show (·.1) <$> swap t u.key (defaultPof n) (fun v => pure (u.f v)) = _
      rw [swap_bind_root ht u.key, pure_bind, hr]
      rfl
    cases r with
    | none =>
      obtain ⟨rfl, hnone⟩ := R.nil rfl
      exact absurd ⟨Finmap.toFinmap_nil, hnone⟩ h
    | some r' =>
      refine ⟨r', hstep, R.valid r' rfl, ?_⟩
      rw [Op.apply, lookup_toStore]
      exact lookup_point (toStore t) (toStore r') u.key _ fun k => by
        rw [lookup_toStore, lookup_toStore]
        exact R.lookup_eq r' rfl k
  · rw [(toStore_eq_empty ht).1 he]
    show (·.1) <$> swap (empty : Pot α) u.key (defaultPof n) (fun v => pure (u.f v)) = _
    simp only [swap, empty, newPot, hf]
    rfl

/-- One call on a valid root: when it is no hazard on the map, it leads to a valid root that
denotes the updated map; when it is one, it panics or returns nil. -/
theorem step_refines (ht : Valid t) (op : Op α n) :
    (¬ op.Hazard (toStore t) → ∃ t', step (some t) op = .ok (some t') ∧ Valid t' ∧
      toStore t' = op.apply (toStore t)) ∧
    (op.Hazard (toStore t) → ∀ t', step (some t) op ≠ .ok (some t')) := by
  cases op with
  | add val => exact ⟨fun _ => step_add ht val, fun h => nomatch h⟩
  | remove val =>
    refine ⟨(step_remove ht val).1, fun h t' => ?_⟩
    rw [(step_remove ht val).2 h]
    exact Except.noConfusion
  | swap u =>
    refine ⟨(step_swap ht u).1, fun h t' => ?_⟩
    rw [(step_swap ht u).2 h]
    simp

end Step

/-! ## Runs -/

/-- The map after the calls made in turn. -/
def applyAll (m : Store α n) (ops : List (Op α n)) : Store α n := ops.foldl Op.apply m

/-- A run from a valid root simulates the calls on its map while they are safe, and fails to
return a pot as soon as one is not. -/
theorem run_simulates : ∀ (ops : List (Op α n)) {t : Pot α}, Valid t →
    (Safe (toStore t) ops → ∃ t', run (some t) ops = .ok (some t') ∧ Valid t' ∧
      toStore t' = applyAll (toStore t) ops) ∧
    (¬ Safe (toStore t) ops → ∀ t', run (some t) ops ≠ .ok (some t'))
  | [], t, ht => ⟨fun _ => ⟨t, rfl, ht, rfl⟩, fun h => absurd trivial h⟩
  | op :: ops, t, ht => by
    obtain ⟨hstep, hhazard⟩ := step_refines ht op
    refine ⟨fun ⟨hop, hs⟩ => ?_, fun hns t' h => ?_⟩
    · obtain ⟨t₁, h₁, hv₁, hm₁⟩ := hstep hop
      obtain ⟨t', h', hv', hm'⟩ := (run_simulates ops hv₁).1 (hm₁ ▸ hs)
      exact ⟨t', by rw [run_cons, h₁]; exact h', hv', by rw [hm', hm₁]; rfl⟩
    · rw [run_cons] at h
      by_cases hop : op.Hazard (toStore t)
      · cases hr : step (some t) op with
        | error e => rw [hr] at h; cases h
        | ok r =>
          cases r with
          | none => rw [hr] at h; exact run_none ops t' h
          | some r => exact hhazard hop r hr
      · obtain ⟨t₁, h₁, hv₁, hm₁⟩ := hstep hop
        rw [h₁] at h
        exact (run_simulates ops hv₁).2 (fun hs => hns ⟨hop, hm₁ ▸ hs⟩) t' h

/-- A sequence of `Add`, `Remove` and `Swap` calls from a valid root returns a pot exactly when
no call is `Remove` or a storing-nothing `Swap` on the empty pot. The pot it returns is a valid
root that denotes the map the calls compute, and its size is the number of keys of that map. -/
theorem run_refines {t : Pot α} (ht : Valid t) (ops : List (Op α n)) :
    (Safe (toStore t) ops → ∃ t', run (some t) ops = .ok (some t') ∧ Valid t' ∧
      toStore t' = applyAll (toStore t) ops ∧ t'.size = (applyAll (toStore t) ops).keys.card) ∧
    (¬ Safe (toStore t) ops → ∀ t', run (some t) ops ≠ .ok (some t')) := by
  refine ⟨fun hs => ?_, (run_simulates ops ht).2⟩
  obtain ⟨t', h', hv', hm'⟩ := (run_simulates ops ht).1 hs
  exact ⟨t', h', hv', hm', hm' ▸ size_eq_card_keys hv'⟩

/-- Two keys stored and the first removed, from the empty pot of 1-bit keys. -/
theorem run_refines_add_add_remove :
    Valid (empty : Pot (Key 1)) ∧
      Safe (toStore empty)
        [(.add ⟨[true], rfl⟩ : Op (Key 1) 1), .add ⟨[false], rfl⟩, .remove ⟨[true], rfl⟩] ∧
      ∃ t', run (some empty)
        [(.add ⟨[true], rfl⟩ : Op (Key 1) 1), .add ⟨[false], rfl⟩, .remove ⟨[true], rfl⟩] =
          .ok (some t') ∧ Valid t' ∧ t'.size = 1 :=
  have hs : Safe (toStore empty)
      [(.add ⟨[true], rfl⟩ : Op (Key 1) 1), .add ⟨[false], rfl⟩, .remove ⟨[true], rfl⟩] := by
    decide
  have ⟨t', h, hv, _, hsize⟩ := (run_refines (.inl rfl) _).1 hs
  ⟨.inl rfl, hs, t', h, hv, hsize.trans (by decide)⟩

end Swarm.Pot
