import Mathlib

/-!
# Address bits and the proximity order

The pot compares values only through a proximity-order function `Pof`, and every `Pof` this
repository passes is `DefaultPof` of pot/address.go, which is not among the sources. It reads the
address of both values (`ToBytes`) and returns the first bit position, at or after a floor, where
they differ, with `true` when there is none. This module models that comparison on bit strings and
proves the common-prefix facts the trie layout rests on: `cpl` is an ultrametric, and two strings
that leave a third at the same bit agree on that bit (`lt_cpl_of_cpl_eq`).
-/

namespace Swarm

/-- Address bits, most significant first: `ToBytes` of a value read bit by bit. -/
abbrev Bits := List Bool

/-- Modelled from the spec: `proximityOrder` of pot/address.go, the loop `DefaultPof` runs. It
walks `one` from bit `pos` on, bits before `pos` being taken as equal, and returns the first
position where `other` differs, or the length of `one` and `true` when none does. Comparing the
empty address of a nil value therefore reports equality at order 0. `other` running out first,
an index panic in Go, cannot happen between addresses of one length; the model reports a
difference there. -/
def proximityOrder : Bits → Bits → Nat → Nat × Bool
  | [], _, _ => (0, true)
  | _ :: _, [], _ => (0, false)
  | a :: one, b :: other, pos =>
    if pos = 0 ∧ a ≠ b then (0, false)
    else
      let r := proximityOrder one other (pos - 1)
      (r.1 + 1, r.2)

/-- Modelled from the spec: `DefaultPof(max)`, the proximity order of the address bits capped at
`max`, where the two values count as equal. -/
def defaultPof (max : Nat) (one other : Bits) (pos : Nat) : Nat × Bool :=
  let r := proximityOrder one other pos
  if max ≤ r.1 then (max, true) else r

/-- The `Pof` type: a proximity order of two addresses from a floor, and whether they match. -/
abbrev Pof := Bits → Bits → Nat → Nat × Bool

/-- The bits of a byte string, each byte most significant bit first, as `proximityOrder` reads
them. -/
def bytesBits (bs : List UInt8) : Bits :=
  bs.flatMap fun b => [7, 6, 5, 4, 3, 2, 1, 0].map b.toNat.testBit

/-- The length of the longest common prefix of two bit strings. -/
def cpl : Bits → Bits → Nat
  | a :: as, b :: bs => if a = b then cpl as bs + 1 else 0
  | _, _ => 0

/-- The `n` address bits of a value: every key a pot compares has this one length. -/
structure Key (n : Nat) where
  bits : Bits
  length_bits : bits.length = n
deriving DecidableEq, Repr

/-! ## Common prefixes -/

@[simp] theorem cpl_nil_left (b : Bits) : cpl [] b = 0 := by cases b <;> rfl

@[simp] theorem cpl_nil_right (a : Bits) : cpl a [] = 0 := by cases a <;> rfl

@[simp] theorem cpl_cons_cons (a b : Bool) (as bs : Bits) :
    cpl (a :: as) (b :: bs) = if a = b then cpl as bs + 1 else 0 := rfl

/-- The common-prefix length is symmetric. -/
theorem cpl_comm : ∀ a b : Bits, cpl a b = cpl b a
  | [], b => by simp
  | _ :: _, [] => by simp
  | x :: as, y :: bs => by simp [cpl_comm as bs, eq_comm]

@[simp] theorem cpl_self : ∀ a : Bits, cpl a a = a.length
  | [] => rfl
  | x :: as => by simp [cpl_self as]

/-- Two bit lists share at most the length of the first. -/
theorem cpl_le_length : ∀ a b : Bits, cpl a b ≤ a.length
  | [], _ => by simp
  | _ :: _, [] => by simp
  | x :: as, y :: bs => by
    have := cpl_le_length as bs
    simp only [cpl_cons_cons, List.length_cons]; split <;> omega

/-- Two strings of one length with a full common prefix are equal. -/
theorem eq_of_cpl_eq_length : ∀ {a b : Bits}, a.length = b.length → cpl a b = a.length → a = b
  | [], [], _, _ => rfl
  | x :: as, y :: bs, hl, h => by
    simp only [cpl_cons_cons, List.length_cons] at h hl
    split at h
    · next hxy => rw [hxy, eq_of_cpl_eq_length (a := as) (b := bs) (by omega) (by omega)]
    · omega

/-- `cpl` is an ultrametric: a common prefix of `a` with `b` and of `b` with `c` is one of `a`
with `c`. -/
theorem min_cpl_le : ∀ a b c : Bits, min (cpl a b) (cpl b c) ≤ cpl a c
  | [], _, _ => by simp
  | _ :: _, [], _ => by simp
  | _ :: _, _ :: _, [] => by simp
  | x :: as, y :: bs, z :: cs => by
    have := min_cpl_le as bs cs
    simp only [cpl_cons_cons]
    by_cases hxy : x = y
    · by_cases hyz : y = z
      · subst hxy hyz; simp only [if_true]; omega
      · simp only [if_pos hxy, if_neg hyz, if_neg (hxy ▸ hyz : x ≠ z)]; omega
    · simp only [if_neg hxy]; omega

/-- In an ultrametric the two shortest sides are equal: if `a` shares less with `b` than `b`
does with `c`, then `a` shares exactly that much with `c`. -/
theorem cpl_eq_of_lt {a b c : Bits} (h : cpl a b < cpl b c) : cpl a c = cpl a b := by
  have h1 := min_cpl_le a b c
  have h2 := min_cpl_le a c b
  rw [cpl_comm c b] at h2
  omega

/-- Bits are binary: two strings of one length that both leave `x` at bit `p` agree on bit `p`,
so they share more than `p` bits. This is why a bin's members lie deeper than the bin. -/
theorem lt_cpl_of_cpl_eq : ∀ {x a b : Bits} {p : Nat}, cpl x a = p → cpl x b = p →
    p < x.length → a.length = x.length → b.length = x.length → p < cpl a b
  | u :: xs, v :: as, w :: bs, p, ha, hb, hp, hla, hlb => by
    simp only [List.length_cons] at hp hla hlb
    cases p with
    | zero =>
      have huv : u ≠ v := fun h => by rw [cpl_cons_cons, if_pos h] at ha; omega
      have huw : u ≠ w := fun h => by rw [cpl_cons_cons, if_pos h] at hb; omega
      have hvw : v = w := by revert huv huw; cases u <;> cases v <;> cases w <;> decide
      rw [cpl_cons_cons, if_pos hvw]; omega
    | succ q =>
      have huv : u = v := by by_contra h; simp [h] at ha
      have huw : u = w := by by_contra h; simp [h] at hb
      subst huv huw
      simp only [cpl_cons_cons, if_true, Nat.add_right_cancel_iff] at ha hb ⊢
      have := lt_cpl_of_cpl_eq ha hb (by omega) (by omega) (by omega)
      omega
  | [], _, _, _, _, _, hp, _, _ => by simp at hp
  | _ :: _, [], _, _, _, _, _, hla, _ => by simp at hla
  | _ :: _, _ :: _, [], _, _, _, _, _, hlb => by simp at hlb

/-! ## The comparison `DefaultPof` runs -/

/-- Above a floor that the common prefix reaches, `proximityOrder` is the common-prefix length,
and it reports a match exactly when that prefix is all of `one`. -/
theorem proximityOrder_of_le : ∀ {a b : Bits} {pos : Nat}, pos ≤ cpl a b →
    proximityOrder a b pos = (cpl a b, decide (cpl a b = a.length))
  | [], _, _, _ => by simp [proximityOrder]
  | _ :: _, [], pos, h => by simp at h; subst h; rfl
  | x :: as, y :: bs, pos, h => by
    by_cases hxy : x = y
    · subst hxy
      simp only [cpl_cons_cons, if_true] at h
      have : proximityOrder as bs (pos - 1) = _ := proximityOrder_of_le (by omega)
      simp [proximityOrder, this]
    · simp only [cpl_cons_cons, hxy, if_false, Nat.le_zero] at h
      subst h
      simp [proximityOrder, hxy]

/-- `DefaultPof` of the key length, compared above a floor the common prefix reaches, is the
common-prefix length and reports a match exactly on a full prefix. -/
theorem defaultPof_of_le {a b : Bits} {pos : Nat} (h : pos ≤ cpl a b) :
    defaultPof a.length a b pos = (cpl a b, decide (cpl a b = a.length)) := by
  have := cpl_le_length a b
  by_cases hc : cpl a b = a.length
  · simp [defaultPof, proximityOrder_of_le h, hc]
  · simp [defaultPof, proximityOrder_of_le h, hc]; omega

/-- Comparing against the empty address of a nil value reports a match at order 0. -/
@[simp] theorem defaultPof_nil (max : Nat) (b : Bits) (pos : Nat) :
    defaultPof max [] b pos = (0, true) := by
  simp only [defaultPof, proximityOrder]; split <;> simp_all

/-! ## Keys -/

namespace Key

variable {n : Nat}

/-- Two keys with the same bits are equal. -/
theorem ext' {k k' : Key n} (h : k.bits = k'.bits) : k = k' := by
  cases k; cases k'; cases h; rfl

/-- Two keys match exactly when their common prefix has the key length. -/
theorem cpl_eq_iff {k k' : Key n} : cpl k.bits k'.bits = n ↔ k = k' := by
  constructor
  · intro h
    exact ext' (eq_of_cpl_eq_length (k.length_bits.trans k'.length_bits.symm)
      (h.trans k.length_bits.symm))
  · rintro rfl; simp [k.length_bits]

/-- Two keys of `n` bits share at most `n` leading bits. -/
theorem cpl_le (k k' : Key n) : cpl k.bits k'.bits ≤ n := by
  have := cpl_le_length k.bits k'.bits
  rwa [k.length_bits] at this

/-- Distinct keys share fewer than `n` bits. -/
theorem cpl_lt {k k' : Key n} (h : k ≠ k') : cpl k.bits k'.bits < n :=
  Nat.lt_of_le_of_ne (cpl_le k k') (fun e => h (cpl_eq_iff.1 e))

/-- `DefaultPof(n)` on two keys, above a floor their common prefix reaches. -/
theorem defaultPof_key {k k' : Key n} {pos : Nat} (h : pos ≤ cpl k.bits k'.bits) :
    defaultPof n k.bits k'.bits pos = (cpl k.bits k'.bits, decide (k = k')) := by
  have := defaultPof_of_le h
  rw [k.length_bits] at this
  rw [this]
  simp [cpl_eq_iff]

/-- The binary-bit lemma for keys: two keys that leave `x` at the same bit `p` share more than
`p` bits. -/
theorem lt_cpl {x a b : Key n} {p : Nat} (ha : cpl x.bits a.bits = p) (hb : cpl x.bits b.bits = p)
    (hp : p < n) : p < cpl a.bits b.bits :=
  lt_cpl_of_cpl_eq ha hb (by rw [x.length_bits]; exact hp) (a.length_bits.trans x.length_bits.symm)
    (b.length_bits.trans x.length_bits.symm)

end Key

end Swarm
