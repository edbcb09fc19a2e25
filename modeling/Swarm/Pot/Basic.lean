import Swarm.Pot.Key

/-!
# The proximity-order trie

`Pot` is the node type of pot/pot.go: the pinned value, the bins below it in ascending proximity
order, the number of values in the subtree, and the node's own proximity order. This module gives
the node type, the helpers the operations share (`newPot`, `getPos`), the values a pot stores, and
the representation invariant `Valid` that every operation is proved to keep.
-/

namespace Swarm

/-- Values with an address, the `BytesAddress` interface `ToBytes` reads; all keys have the one
length `n`. -/
class BytesAddress (α : Type) (n : outParam Nat) where
  address : α → Key n

export BytesAddress (address)

/-- `pot.Address` of pot/address.go, a bare key, is its own address. -/
instance (n : Nat) : BytesAddress (Key n) n := ⟨id⟩

/-- `Pot`, the node type, the same for root, branching node and leaf. A `none` pin is Go's nil
`Val`. The pointer itself is never nil here; `Swap`, the one operation that can return a nil pot,
returns an `Option`. -/
structure Pot (α : Type) where
  pin : Option α
  bins : List (Pot α)
  size : Int
  po : Nat
deriving Repr

namespace Pot

variable {α : Type} {n : Nat} [BytesAddress α n]

/-- `ToBytes`: the address bits of a value; nil has none. -/
def toBytes : Option α → Bits
  | none => []
  | some v => (address v).bits

/-- `NewPot`: a pot pinning `v` at order `po`; a non-nil pin counts towards the size. -/
def newPot (v : Option α) (po : Nat) : Pot α :=
  ⟨v, [], if v.isSome then 1 else 0, po⟩

/-- The empty pot `NewPot(nil, 0)`. -/
def empty : Pot α := newPot none 0

/-- `getPos` on a node's bins: the bin at order `po` with its index, or `none` and the index at
which such a bin would be inserted. -/
def getPos : List (Pot α) → Nat → Option (Pot α) × Nat
  | [], _ => (none, 0)
  | b :: bins, po =>
    if po > b.po then ((getPos bins po).1, (getPos bins po).2 + 1)
    else if po < b.po then (none, 0)
    else (some b, 0)

/-- The total size of a list of bins. -/
def sizes (bins : List (Pot α)) : Int := (bins.map Pot.size).sum

mutual
/-- The values a pot stores, in the order `each` visits them: every bin in turn, then the pin. -/
def vals : Pot α → List α
  | ⟨pin, bins, _, _⟩ => valsOf bins ++ pin.toList

/-- The values stored in a list of bins, bin by bin. -/
def valsOf : List (Pot α) → List α
  | [] => []
  | b :: bins => vals b ++ valsOf bins
end

/-- The stored value with key `k`, if any. -/
def lookup (t : Pot α) (k : Key n) : Option α := (vals t).find? (fun v => address v = k)

/-- The representation invariant of a non-empty node. Its pin is set; its size counts the pin and
its bins; the bins are strictly ascending by order, each at an order no smaller than the node's;
every bin is itself well formed; and every value under the bin at order `b.po` shares exactly
`b.po` leading bits with the pin. -/
inductive Wf : Pot α → Prop
  | node {x : α} {bins : List (Pot α)} {size : Int} {po : Nat}
      (size_eq : size = 1 + sizes bins)
      (sorted : (bins.map Pot.po).Pairwise (· < ·))
      (bins_wf : ∀ b ∈ bins, Wf b)
      (bins_po : ∀ b ∈ bins, po ≤ b.po)
      (bins_cpl : ∀ b ∈ bins, ∀ v ∈ vals b, cpl (address x).bits (address v).bits = b.po) :
      Wf ⟨some x, bins, size, po⟩

/-- The representation invariant of a root: the empty pot, or a well-formed node at order 0 that
stores no two values with the same key. -/
def Valid (t : Pot α) : Prop :=
  t = empty ∨ (t.po = 0 ∧ Wf t ∧ ((vals t).map address).Nodup)

/-! ## Stored values -/

@[simp] theorem vals_mk (pin : Option α) (bins : List (Pot α)) (size : Int) (po : Nat) :
    vals ⟨pin, bins, size, po⟩ = valsOf bins ++ pin.toList := by
  simp [vals]

/-- The values of a node are those of its bins, then its pin. -/
theorem vals_eq (t : Pot α) : vals t = valsOf t.bins ++ t.pin.toList := by cases t; simp

@[simp] theorem valsOf_nil : valsOf ([] : List (Pot α)) = [] := by simp [valsOf]

@[simp] theorem valsOf_cons (b : Pot α) (bins : List (Pot α)) :
    valsOf (b :: bins) = vals b ++ valsOf bins := by simp [valsOf]

@[simp] theorem valsOf_append (l l' : List (Pot α)) : valsOf (l ++ l') = valsOf l ++ valsOf l' := by
  induction l with
  | nil => simp
  | cons b l ih => simp [ih]

/-- A value of a list of bins is a value of one of them. -/
theorem mem_valsOf {v : α} {bins : List (Pot α)} : v ∈ valsOf bins ↔ ∃ b ∈ bins, v ∈ vals b := by
  induction bins with
  | nil => simp
  | cons b bins ih => simp [ih]

@[simp] theorem sizes_nil : sizes ([] : List (Pot α)) = 0 := rfl

@[simp] theorem sizes_cons (b : Pot α) (bins : List (Pot α)) :
    sizes (b :: bins) = b.size + sizes bins := by simp [sizes]

@[simp] theorem sizes_append (l l' : List (Pot α)) : sizes (l ++ l') = sizes l + sizes l' := by
  simp [sizes]

@[simp] theorem vals_empty : vals (empty : Pot α) = [] := by simp [empty, newPot]

/-! ## The invariant -/

namespace Wf

variable {t : Pot α}

/-- A well-formed node has a pin. -/
theorem pin_isSome (h : Wf t) : ∃ x, t.pin = some x := by cases h; exact ⟨_, rfl⟩

/-- The size of a well-formed node counts its pin and the sizes of its bins. -/
theorem size_eq' (h : Wf t) : t.size = 1 + sizes t.bins := by cases h; assumption

/-- The bins of a well-formed node ascend by order. -/
theorem sorted' (h : Wf t) : (t.bins.map Pot.po).Pairwise (· < ·) := by cases h; assumption

/-- The bins of a well-formed node are well formed. -/
theorem bin (h : Wf t) {b : Pot α} (hb : b ∈ t.bins) : Wf b := by cases h with
  | node _ _ bins_wf _ _ => exact bins_wf b hb

/-- The bins of a well-formed node lie at its order or deeper. -/
theorem bin_po (h : Wf t) {b : Pot α} (hb : b ∈ t.bins) : t.po ≤ b.po := by cases h with
  | node _ _ _ bins_po _ => exact bins_po b hb

/-- A value of a bin of a well-formed node shares with the pin as many leading bits as the bin's
order. -/
theorem bin_cpl {x : α} (h : Wf t) (hx : t.pin = some x) {b : Pot α} (hb : b ∈ t.bins)
    {v : α} (hv : v ∈ vals b) : cpl (address x).bits (address v).bits = b.po := by
  cases h with
  | node _ _ _ _ bins_cpl => cases hx; exact bins_cpl b hb v hv

end Wf

/-! ## Where a bin order falls in a node's bins -/

/-- Every bin list splits at an order `po`: the bins below `po`, then either the bin at `po` and
the rest, or only bins above `po`. -/
theorem bins_split (bins : List (Pot α)) (po : Nat) :
    (∃ pre b post, bins = pre ++ b :: post ∧ (∀ c ∈ pre, c.po < po) ∧ b.po = po) ∨
    (∃ pre post, bins = pre ++ post ∧ (∀ c ∈ pre, c.po < po) ∧ ∀ c ∈ post.head?, po < c.po) := by
  induction bins with
  | nil => exact .inr ⟨[], [], rfl, by simp, by simp⟩
  | cons b bins ih =>
    rcases Nat.lt_trichotomy b.po po with hlt | heq | hgt
    · rcases ih with ⟨pre, c, post, rfl, hpre, hc⟩ | ⟨pre, post, rfl, hpre, hpost⟩
      · exact .inl ⟨b :: pre, c, post, rfl, by simpa [hlt] using hpre, hc⟩
      · exact .inr ⟨b :: pre, post, rfl, by simpa [hlt] using hpre, hpost⟩
    · exact .inl ⟨[], b, bins, rfl, by simp, heq⟩
    · exact .inr ⟨[], b :: bins, rfl, by simp, by simpa using hgt⟩

/-- `getPos` finds the bin at an order, after the bins below it. -/
theorem getPos_found {pre post : List (Pot α)} {b : Pot α} {po : Nat}
    (hpre : ∀ c ∈ pre, c.po < po) (hb : b.po = po) :
    getPos (pre ++ b :: post) po = (some b, pre.length) := by
  induction pre with
  | nil => simp [getPos, hb]
  | cons c pre ih =>
    simp only [List.mem_cons, forall_eq_or_imp] at hpre
    simp [getPos, hpre.1, ih hpre.2]

/-- `getPos` finds no bin at an order that lies between two bins, and returns the position of the
gap. -/
theorem getPos_gap {pre post : List (Pot α)} {po : Nat}
    (hpre : ∀ c ∈ pre, c.po < po) (hpost : ∀ c ∈ post.head?, po < c.po) :
    getPos (pre ++ post) po = (none, pre.length) := by
  induction pre with
  | nil =>
    cases post with
    | nil => rfl
    | cons c post => simp at hpost; simp [getPos, hpost, Nat.not_lt.2 hpost.le]
  | cons c pre ih =>
    simp only [List.mem_cons, forall_eq_or_imp] at hpre
    simp [getPos, hpre.1, ih hpre.2]

/-- The sizes of bins whose size fields count their values add up to the values below them. -/
theorem sizes_eq_length {bins : List (Pot α)} (h : ∀ b ∈ bins, b.size = (vals b).length) :
    sizes bins = (valsOf bins).length := by
  induction bins with
  | nil => simp
  | cons b l ih =>
    simp only [List.mem_cons, forall_eq_or_imp] at h
    simp [ih h.2, h.1]

/-- The size field of a well-formed node counts its stored values. -/
theorem Wf.size_eq_length {t : Pot α} (h : Wf t) : t.size = (vals t).length := by
  induction h with
  | node size_eq _ _ _ _ ih =>
    simp [size_eq, sizes_eq_length ih]
    omega

/-- The sizes of well-formed bins count their values. -/
theorem Wf.sizes_eq_length {bins : List (Pot α)} (h : ∀ b ∈ bins, Wf b) :
    sizes bins = (valsOf bins).length :=
  Pot.sizes_eq_length (fun b hb => (h b hb).size_eq_length)

end Pot

end Swarm
