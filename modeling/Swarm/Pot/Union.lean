import Swarm.Pot.Add

/-!
# Union

`union` of pot/pot.go merges two pots. It walks down both tries at once with two cursors, `pin0`
with the bins `bins0[i0:]` and `pin1` with `bins1[i1:]`, at `po`, the proximity order of the two
pins. Its inner loop moves the bins of both sides below `po` to the union in ascending order,
uniting two bins at one order by a recursive `union`. Then, unless the pins match, the pin of side
0 and its bins above `po` become a new bin `np` at `po`, and the two sides swap: the bin of side 0
at `po`, if any, has its pin compared next, with `np` among its bins; if there is none, the pin of
side 1 is the union's, and one last turn merges all that is left. `common` counts the matching
pins; `common--` and the closing `common++` cancel on that last turn.

A slice with an index is the suffix from the index on (`bins0[i0:]`). The recursion and the outer
loop run on `fuel`, the model returning `none` when it runs out.
-/

namespace Swarm.Pot

variable {α : Type} {n : Nat} [BytesAddress α n]

/-- `maxkeylen`, the key length in bits that `union`'s last turn provides for. -/
def maxkeylen : Nat := 256

/-- What the test at the top of `union`'s inner loop leaves for one side: `n`, `p` and `a`. -/
structure Read (α : Type) where
  n : Option (Pot α)
  p : Nat
  a : Bool

/-- The test at the top of `union`'s inner loop for one side, `rest` being its bins still to
merge: while `a` is unset and the next bin lies at `po` or below, that bin becomes `n` and its
order `p`, and `a` is set when the order is `po`; else `a` is set. -/
def readBin (po : Nat) (rest : List (Pot α)) (n : Option (Pot α)) (p : Nat) (a : Bool) :
    Read α :=
  match a, rest with
  | false, b :: _ => if b.po ≤ po then ⟨some b, b.po, decide (b.po = po)⟩ else ⟨n, p, true⟩
  | _, _ => ⟨n, p, true⟩

/-- The variables of `union`'s inner loop: the bins of the union so far, the common counts of
the unions of two bins (`mis`), the bins `bins0[i0:]` and `bins1[i1:]` still to merge, and `n0`,
`n1`, `p0`, `p1`, `a0` and `a1`. -/
structure Merge (α : Type) where
  bins : List (Pot α)
  mis : List Int
  rest0 : List (Pot α)
  rest1 : List (Pot α)
  n0 : Option (Pot α)
  n1 : Option (Pot α)
  p0 : Nat
  p1 : Nat
  a0 : Bool
  a1 : Bool

/-- The test at the top of the inner loop reads a bin only when one is left. -/
theorem readBin_ne_nil {po : Nat} {rest : List (Pot α)} {n : Option (Pot α)} {p : Nat} {a : Bool}
    (h : (readBin po rest n p a).a = false) : rest ≠ [] := by
  rintro rfl
  cases a <;> simp [readBin] at h

/-- The inner loop of `union` at order `po`, `rec` being `union` itself. `none` when a union it
calls does not end, or when no case of its switch applies, the loop then never ending. -/
def mergeLoop (rec : Pot α → Pot α → Option (Pot α × Int)) (po : Nat) (s : Merge α) :
    Option (Merge α) :=
  let r0 := readBin po s.rest0 s.n0 s.p0 s.a0
  let r1 := readBin po s.rest1 s.n1 s.p1 s.a1
  if _h : r0.a && r1.a then
    some { s with n0 := r0.n, n1 := r1.n, p0 := r0.p, p1 := r1.p, a0 := r0.a, a1 := r1.a }
  else if _h0 : (r0.p < r1.p || r1.a) && !r0.a then
    mergeLoop rec po
      { s with
        bins := s.bins ++ r0.n.toList, rest0 := s.rest0.tail, n0 := none, n1 := r1.n,
        p0 := r0.p, p1 := r1.p, a0 := r0.a, a1 := r1.a }
  else if _h1 : (r1.p < r0.p || r0.a) && !r1.a then
    mergeLoop rec po
      { s with
        bins := s.bins ++ r1.n.toList, rest1 := s.rest1.tail, n1 := none, n0 := r0.n,
        p0 := r0.p, p1 := r1.p, a0 := r0.a, a1 := r1.a }
  else if r1.p < po then
    match r0.n, r1.n with
    | some m0, some m1 => (rec m0 m1).bind fun r =>
      mergeLoop rec po
        { s with
          bins := s.bins ++ [r.1], mis := s.mis ++ [r.2], rest0 := s.rest0.tail,
          rest1 := s.rest1.tail, n0 := none, n1 := none, p0 := r0.p, p1 := r1.p, a0 := r0.a,
          a1 := r1.a }
    | _, _ => none
  else none
termination_by s.rest0.length + s.rest1.length
decreasing_by
  all_goals simp_wf
  · have : s.rest0 ≠ [] := readBin_ne_nil (by simp at _h0; exact _h0.2)
    have := List.length_pos.2 this
    omega
  · have : s.rest1 ≠ [] := readBin_ne_nil (by simp at _h1; exact _h1.2)
    have := List.length_pos.2 this
    omega
  · have : s.rest0 ≠ [] := readBin_ne_nil (by
      cases ha0 : r0.a <;> cases ha1 : r1.a <;> simp_all)
    have := List.length_pos.2 this
    omega

/-- The variables of `union`'s outer loop: the bins of the union so far, `mis`, `pin0` and
`pin1`, the bins `bins0[i0:]` and `bins1[i1:]`, `common`, and `po` and `eq`. -/
structure Zigzag (α : Type) where
  bins : List (Pot α)
  mis : List Int
  pin0 : Option α
  pin1 : Option α
  rest0 : List (Pot α)
  rest1 : List (Pot α)
  common : Int
  po : Nat
  eq : Bool

/-- The bins `bins0[i:]` above `po` left on side 0 after the inner loop: those after the bin at
`po`, if any. -/
def higherBins (po : Nat) : List (Pot α) → List (Pot α)
  | b :: rest => if b.po = po then rest else b :: rest
  | [] => []

/-- The outer loop of `union` for at most `fuel` turns, `rec` being `union` itself: the final
state and the pin of the union; `none` when the turns run out or an inner loop does not end. -/
def zigzag (pof : Pof) (rec : Pot α → Pot α → Option (Pot α × Int)) :
    Nat → Zigzag α → Option (Zigzag α × Option α)
  | 0, _ => none
  | fuel + 1, s =>
    (mergeLoop rec s.po ⟨s.bins, s.mis, s.rest0, s.rest1, none, none, 0, 0, false, false⟩).bind
      fun m =>
      if s.eq then
        some ({ s with
          bins := m.bins, mis := m.mis, rest0 := m.rest0, rest1 := m.rest1,
          common := s.common + 1 }, s.pin1)
      else
        let higher := higherBins s.po m.rest0
        let np : Pot α := ⟨s.pin0, higher, sizes higher + 1, s.po⟩
        match m.n0 with
        | none => zigzag pof rec fuel
            ⟨m.bins, m.mis, s.pin1, s.pin1, m.rest1, [np], s.common - 1, maxkeylen + 1, true⟩
        | some n0 =>
          let r := pof (toBytes s.pin1) (toBytes n0.pin) n0.po
          zigzag pof rec fuel
            ⟨m.bins, m.mis, s.pin1, n0.pin, m.rest1, np :: n0.bins, s.common, r.1, r.2⟩

/-- `union` with `fuel` for its recursion and its loops: the union and the number of common
values; `none` when the fuel runs out. `Union` is `union`. -/
def union (pof : Pof) : Nat → Pot α → Pot α → Option (Pot α × Int)
  | 0, _, _ => none
  | fuel + 1, t0, t1 =>
    if t0.size = 0 then some (t1, 0)
    else if t1.size = 0 then some (t0, 0)
    else
      let r := pof (toBytes t0.pin) (toBytes t1.pin) 0
      (zigzag pof (union pof fuel) fuel
          ⟨[], [], t0.pin, t1.pin, t0.bins, t1.bins, 0, r.1, r.2⟩).map fun z =>
        let common := z.1.common + z.1.mis.sum
        (⟨z.2, z.1.bins, t0.size + t1.size - common, t0.po⟩, common)

/-! ## The inner loop

Between iterations the inner loop keeps, for each side, either nothing read yet (`a` unset, and
`n` nil or the next bin, below `po`) or the end of that side's bins below `po` (`a` set, and `n`
the next bin if it lies at `po`). From there `readBin` either reads the next bin, below `po`, or
reaches the end. Each case of the switch then moves one bin or unites two at one order, and the
loop ends with both sides at `po`. `mergeLoop_steps` states this for any property of the loop's
lists that the three cases keep. -/

/-- The bin at `po` that the inner loop stops at, if the next bin lies there. -/
def atPo (po : Nat) : List (Pot α) → Option (Pot α)
  | b :: _ => if b.po = po then some b else none
  | [] => none

/-- What the inner loop keeps of one side between iterations, `rest` being its bins still to
merge. -/
def Side (po : Nat) (rest : List (Pot α)) (n : Option (Pot α)) : Bool → Prop
  | true => n = atPo po rest ∧ ∀ b ∈ rest.head?, po ≤ b.po
  | false => n = none ∨ ∃ b ∈ rest.head?, b.po < po ∧ n = some b

/-- `readBin` from a kept state reads the next bin, below `po`, or reaches the end of the side's
bins below `po`. -/
theorem readBin_side {po p : Nat} {rest : List (Pot α)} {n : Option (Pot α)} {a : Bool}
    (h : Side po rest n a) :
    ((readBin po rest n p a).a = false ∧ ∃ b rest', rest = b :: rest' ∧ b.po < po ∧
      (readBin po rest n p a).n = some b ∧ (readBin po rest n p a).p = b.po) ∨
    ((readBin po rest n p a).a = true ∧ Side po rest (readBin po rest n p a).n true) := by
  cases a with
  | true => exact .inr ⟨rfl, h⟩
  | false =>
    cases rest with
    | nil => simpa [readBin, Side, atPo] using h
    | cons b rest =>
      by_cases hb : b.po ≤ po
      · by_cases he : b.po = po
        · simp [readBin, Side, atPo, he]
        · exact .inl ⟨by simp [readBin, hb, he], b, rest, rfl, by omega, by simp [readBin, hb]⟩
      · simp only [Side, List.head?_cons, Option.mem_def, Option.some.injEq, exists_eq_left'] at h
        have : b.po ≠ po := by omega
        simp [readBin, Side, atPo, hb, this, h.resolve_right (by omega)]
        omega

section MergeLoop

variable (rec : Pot α → Pot α → Option (Pot α × Int)) (po : Nat)
  (P : List (Pot α) → List Int → List (Pot α) → List (Pot α) → Prop)

/-- What the three cases of the inner loop's switch keep of a property `P` of the bins merged,
the common counts and the bins left on both sides: moving the next bin of side 0 or of side 1 when
it lies below `po` and below the other side's next bin, and uniting two next bins at one order
below `po`, which `rec` does. -/
structure MergeSteps : Prop where
  left : ∀ bins mis b rest0 rest1, P bins mis (b :: rest0) rest1 → b.po < po →
    (∀ c ∈ rest1.head?, b.po < c.po) → P (bins ++ [b]) mis rest0 rest1
  right : ∀ bins mis rest0 b rest1, P bins mis rest0 (b :: rest1) → b.po < po →
    (∀ c ∈ rest0.head?, b.po < c.po) → P (bins ++ [b]) mis rest0 rest1
  both : ∀ bins mis b0 rest0 b1 rest1, P bins mis (b0 :: rest0) (b1 :: rest1) →
    b0.po = b1.po → b1.po < po →
    ∃ r, rec b0 b1 = some r ∧ P (bins ++ [r.1]) (mis ++ [r.2]) rest0 rest1

variable {rec po P}

/-- The inner loop, run from kept states, ends, keeps `P`, and stops on both sides at the end of
their bins below `po`. -/
theorem mergeLoop_steps (hP : MergeSteps rec po P) (bins : List (Pot α)) (mis : List Int)
    (rest0 rest1 : List (Pot α)) (n0 n1 : Option (Pot α)) (p0 p1 : Nat) (a0 a1 : Bool)
    (h0 : Side po rest0 n0 a0) (h1 : Side po rest1 n1 a1) (hs : P bins mis rest0 rest1) :
    ∃ m, mergeLoop rec po ⟨bins, mis, rest0, rest1, n0, n1, p0, p1, a0, a1⟩ = some m ∧
      P m.bins m.mis m.rest0 m.rest1 ∧ Side po m.rest0 m.n0 true ∧ Side po m.rest1 m.n1 true := by
  generalize hN : rest0.length + rest1.length = N
  induction N using Nat.strong_induction_on generalizing bins mis rest0 rest1 n0 n1 p0 p1 a0 a1 with
  | _ N ih =>
  have e0 := readBin_side (p := p0) h0
  have e1 := readBin_side (p := p1) h1
  rw [mergeLoop]
  generalize readBin po rest0 n0 p0 a0 = R0 at e0 ⊢
  generalize readBin po rest1 n1 p1 a1 = R1 at e1 ⊢
  obtain ⟨rn0, rp0, ra0⟩ := R0
  obtain ⟨rn1, rp1, ra1⟩ := R1
  dsimp only at e0 e1 ⊢
  rcases e0 with ⟨rfl, b0, r0, rfl, hb0, rfl, rfl⟩ | ⟨rfl, hs0⟩ <;>
  rcases e1 with ⟨rfl, b1, r1, rfl, hb1, rfl, rfl⟩ | ⟨rfl, hs1⟩
  · -- both sides read a bin below `po`
    rcases Nat.lt_trichotomy b0.po b1.po with hlt | heq | hgt
    · rw [dif_neg (by simp), dif_pos (by simpa using hlt)]
      exact ih _ (by simp at hN ⊢; omega) (bins ++ [b0]) mis r0 (b1 :: r1) none (some b1) b0.po b1.po false false
        (.inl rfl) (.inr ⟨b1, rfl, hb1, rfl⟩) (hP.left _ _ _ _ _ hs hb0 (by simpa using hlt)) rfl
    · obtain ⟨r, hr, hr'⟩ := hP.both _ _ _ _ _ _ hs heq hb1
      rw [dif_neg (by simp), dif_neg (by simp [heq]), dif_neg (by simp [heq]), if_pos hb1]
      simp only [hr, Option.some_bind, List.tail_cons]
      exact ih _ (by simp at hN ⊢; omega) (bins ++ [r.1]) (mis ++ [r.2]) r0 r1 none none b0.po b1.po false false
        (.inl rfl) (.inl rfl) hr' rfl
    · rw [dif_neg (by simp), dif_neg (by simp; omega), dif_pos (by simpa using hgt)]
      exact ih _ (by simp at hN ⊢; omega) (bins ++ [b1]) mis (b0 :: r0) r1 (some b0) none b0.po b1.po false false
        (.inr ⟨b0, rfl, hb0, rfl⟩) (.inl rfl) (hP.right _ _ _ _ _ hs hb1 (by simpa using hgt)) rfl
  · -- side 1 is at `po`: move the bin of side 0
    rw [dif_neg (by simp), dif_pos (by simp)]
    exact ih _ (by simp at hN ⊢; omega) (bins ++ [b0]) mis r0 rest1 none rn1 b0.po rp1 false true (.inl rfl) hs1
      (hP.left _ _ _ _ _ hs hb0 fun c hc => Nat.lt_of_lt_of_le hb0 (hs1.2 c hc)) rfl
  · -- side 0 is at `po`: move the bin of side 1
    rw [dif_neg (by simp), dif_neg (by simp), dif_pos (by simp)]
    exact ih _ (by simp at hN ⊢; omega) (bins ++ [b1]) mis rest0 r1 rn0 none rp0 b1.po true false hs0 (.inl rfl)
      (hP.right _ _ _ _ _ hs hb1 fun c hc => Nat.lt_of_lt_of_le hb1 (hs0.2 c hc)) rfl
  · -- both sides are at `po`: the loop ends
    rw [dif_pos (by decide)]
    exact ⟨_, rfl, hs, hs0, hs1⟩

end MergeLoop

/-! ## Bins below a pin

`union` never looks at the values, only at orders, so what it keeps is where the bins it moves
can stand. A bin at order `b.po` can stand below a pin with key `k` when all its values leave `k`
at bit `b.po`; such a bin can also stand below any pin that agrees with `k` beyond `b.po`
(`BinAt.rebase`), and its own bins lie deeper (`BinAt.deep`). Distinct orders from one pin give
distinct keys, so a node of such bins stores no key twice (`node_nodup`). -/

/-- A bin that can stand below a pin with key `k`: well formed, storing no key twice, below the
key length, and every value leaving `k` at bit `b.po`. -/
structure BinAt (k : Key n) (b : Pot α) : Prop where
  wf : Wf b
  nodup : ((vals b).map address).Nodup
  lt : b.po < n
  cpl_eq : ∀ v ∈ vals b, cpl k.bits (address v).bits = b.po

/-- The bins still to merge on one side, below a pin with key `k`: ascending, each a `BinAt k`,
none below the floor `f`. -/
structure Under (k : Key n) (f : Nat) (bins : List (Pot α)) : Prop where
  sorted : (bins.map Pot.po).Pairwise (· < ·)
  bin : ∀ b ∈ bins, BinAt k b
  floor : ∀ b ∈ bins, f ≤ b.po

/-- A value of a bin is a value of the node. -/
theorem mem_vals_of_mem_bins {b c : Pot α} (hc : c ∈ b.bins) {v : α} (hv : v ∈ vals c) :
    v ∈ vals b := by
  rw [vals_eq]; exact List.mem_append_left _ (mem_valsOf.2 ⟨c, hc, hv⟩)

/-- A bin below `k` can stand below any pin that agrees with `k` beyond the bin's order. -/
theorem BinAt.rebase {k k' : Key n} {b : Pot α} (h : BinAt k b)
    (hk : b.po < cpl k.bits k'.bits) : BinAt k' b := by
  refine ⟨h.wf, h.nodup, h.lt, fun v hv => ?_⟩
  have h1 : cpl (address v).bits k.bits = b.po := (cpl_comm _ _).trans (h.cpl_eq v hv)
  rw [cpl_comm, cpl_eq_of_lt (by rw [h1]; exact hk), h1]

/-- The bins of a well-formed node that stores no key twice can stand below its pin. -/
theorem binAt_of_mem {t : Pot α} {x : α} (ht : Wf t) (hx : t.pin = some x)
    (hnd : ((vals t).map address).Nodup) {c : Pot α} (hc : c ∈ t.bins) : BinAt (address x) c := by
  have hcw := ht.bin hc
  obtain ⟨w, hw⟩ := hcw.pin_isSome
  have hcpl := ht.bin_cpl hx hc (pin_mem_vals hw)
  obtain ⟨pre, post, hsplit⟩ := List.append_of_mem hc
  obtain ⟨pin, bins, size, po⟩ := t
  cases hx
  dsimp only at hsplit; subst hsplit
  refine ⟨hcw, nodup_bin hnd, ?_, fun v hv => ht.bin_cpl rfl hc hv⟩
  rw [← hcpl]
  exact Key.cpl_lt (Wf.address_ne_pin rfl hnd (mem_valsOf.2 ⟨c, hc, pin_mem_vals hw⟩)).symm

/-- The bins of a bin below `k` lie deeper than it: their values and the bin's pin leave `k` at
the same bit. -/
theorem BinAt.deep {k : Key n} {b c : Pot α} (h : BinAt k b) (hc : c ∈ b.bins) :
    b.po < c.po := by
  obtain ⟨y, hy⟩ := h.wf.pin_isSome
  obtain ⟨w, hw⟩ := (h.wf.bin hc).pin_isSome
  rw [← h.wf.bin_cpl hy hc (pin_mem_vals hw)]
  exact Key.lt_cpl (h.cpl_eq y (pin_mem_vals hy))
    (h.cpl_eq w (mem_vals_of_mem_bins hc (pin_mem_vals hw))) h.lt

/-- The bins of a bin below `k` can stand below the bin's pin, above the bin's order. -/
theorem BinAt.under {k : Key n} {b : Pot α} {y : α} (h : BinAt k b) (hy : b.pin = some y) :
    Under (address y) (b.po + 1) b.bins :=
  ⟨h.wf.sorted', fun _ hc => binAt_of_mem h.wf hy h.nodup hc, fun _ hc => h.deep hc⟩

/-- The values of ascending bins below one pin have distinct keys. -/
theorem valsOf_nodup {k : Key n} :
    ∀ {bins : List (Pot α)}, (bins.map Pot.po).Pairwise (· < ·) → (∀ b ∈ bins, BinAt k b) →
      ((valsOf bins).map address).Nodup
  | [], _, _ => by simp
  | b :: bins, hs, hb => by
    simp only [List.map_cons, List.pairwise_cons, List.mem_map, forall_exists_index, and_imp,
      forall_apply_eq_imp_iff₂] at hs
    simp only [List.mem_cons, forall_eq_or_imp] at hb
    simp only [valsOf_cons, List.map_append, List.nodup_append]
    refine ⟨hb.1.nodup, valsOf_nodup hs.2 hb.2, ?_⟩
    simp only [List.Disjoint, List.mem_map, mem_valsOf]
    rintro _ ⟨v, hv, rfl⟩ ⟨w, ⟨c, hc, hw⟩, e⟩
    have := hs.1 c hc
    rw [← hb.1.cpl_eq v hv, ← (hb.2 c hc).cpl_eq w hw, e] at this
    exact lt_irrefl _ this

/-- A node whose bins ascend below its pin stores no key twice. -/
theorem node_nodup {x : α} {bins : List (Pot α)} (hs : (bins.map Pot.po).Pairwise (· < ·))
    (hb : ∀ b ∈ bins, BinAt (address x) b) : ((valsOf bins ++ [x]).map address).Nodup := by
  simp only [List.map_append, List.map_cons, List.map_nil, List.nodup_append, List.nodup_cons,
    List.not_mem_nil, not_false_eq_true, List.nodup_nil, and_self, true_and]
  refine ⟨valsOf_nodup hs hb, ?_⟩
  simp only [List.Disjoint, List.mem_map, mem_valsOf, List.mem_singleton]
  rintro _ ⟨w, ⟨c, hc, hw⟩, e⟩ rfl
  have := (hb c hc).cpl_eq w hw
  rw [e, cpl_self, (address x).length_bits] at this
  exact absurd (hb c hc).lt (by omega)

/-- The bins after the first still lie below the pin. -/
theorem Under.tail {k : Key n} {f : Nat} {b : Pot α} {rest : List (Pot α)}
    (h : Under k f (b :: rest)) : Under k f rest :=
  ⟨(List.pairwise_cons.1 h.sorted).2, fun c hc => h.bin c (List.mem_cons_of_mem _ hc),
    fun c hc => h.floor c (List.mem_cons_of_mem _ hc)⟩

/-- The first bin lies below the others. -/
theorem Under.head_lt {k : Key n} {f : Nat} {b : Pot α} {rest : List (Pot α)}
    (h : Under k f (b :: rest)) {c : Pot α} (hc : c ∈ rest) : b.po < c.po :=
  (List.pairwise_cons.1 h.sorted).1 c.po (List.mem_map_of_mem _ hc)

/-! ## Counting the common values

`Drops c c' D` says that `c'` is `c` with the values `D` dropped, each leaving a value of its key
in `c'`. `union` drops one of two values with one key whenever it matches two pins, and counts it
in `common` or `mis`; the relation composes along the loops (`Drops.trans`). -/

/-- `c'` is `c` with the values `D` dropped, each of them leaving a value with its key in `c'`. -/
def Drops (c c' D : List α) : Prop :=
  (c' ++ D).Perm c ∧ ∀ e ∈ D, ∃ w ∈ c', address w = address e

/-- Dropping nothing leaves a list as it is. -/
theorem Drops.refl (c : List α) : Drops c c [] := ⟨by simp, by simp⟩

/-- Two drops in turn drop both lists of values. -/
theorem Drops.trans {c c' c'' D D' : List α} (h : Drops c c' D) (h' : Drops c' c'' D') :
    Drops c c'' (D' ++ D) := by
  refine ⟨by rw [← List.append_assoc]; exact (h'.1.append_right D).trans h.1, fun e he => ?_⟩
  rcases List.mem_append.1 he with he | he
  · exact h'.2 e he
  · obtain ⟨w, hw, hwe⟩ := h.2 e he
    rcases List.mem_append.1 (h'.1.symm.subset hw) with hw | hw
    · exact ⟨w, hw, hwe⟩
    · obtain ⟨w', hw', e'⟩ := h'.2 w hw
      exact ⟨w', hw', e'.trans hwe⟩

/-- Dropping from a list drops from every permutation of it. -/
theorem Drops.perm_left {c₁ c₂ c' D : List α} (hc : c₁.Perm c₂) (h : Drops c₁ c' D) :
    Drops c₂ c' D :=
  ⟨h.1.trans hc, h.2⟩

/-- A drop that leaves a list leaves every permutation of it. -/
theorem Drops.perm_right {c c'₁ c'₂ D : List α} (hc : c'₁.Perm c'₂) (h : Drops c c'₁ D) :
    Drops c c'₂ D :=
  ⟨(hc.symm.append_right D).trans h.1, fun e he =>
    let ⟨w, hw, hwe⟩ := h.2 e he; ⟨w, hc.subset hw, hwe⟩⟩

/-- Dropping inside a list drops in any list around it. -/
theorem Drops.frame {c c' D : List α} (h : Drops c c' D) (e g : List α) :
    Drops (e ++ c ++ g) (e ++ c' ++ g) D := by
  classical
  refine ⟨List.perm_iff_count.2 fun a => ?_, fun w hw => ?_⟩
  · have := List.perm_iff_count.1 h.1 a
    simp only [List.count_append] at this ⊢
    omega
  · obtain ⟨v, hv, e'⟩ := h.2 w hw
    exact ⟨v, by simp [hv], e'⟩

/-! ## One inner loop of `union`

`MergeInv` is what the inner loop keeps while it merges the two sides' bins below `po` into the
union's bins: each side's bins still to merge, the bins merged, ascending below both sides' bins,
and the values of all of them, which are those of `T` less the values the unions of two bins
dropped, counted in `mis`. -/

/-- What `mergeLoop` needs of `rec`, from order `d` on: two bins at one order, below pins that
agree beyond it, are united into a bin at that order below the first pin, dropping only values
whose key stays, as many as it reports. -/
def RecSpec (rec : Pot α → Pot α → Option (Pot α × Int)) (d : Nat) : Prop :=
  ∀ (k0 k1 : Key n) (b0 b1 : Pot α), BinAt k0 b0 → BinAt k1 b1 → b0.po = b1.po → d ≤ b0.po →
    b0.po < cpl k0.bits k1.bits →
    ∃ r c, rec b0 b1 = some (r, c) ∧ BinAt k0 r ∧ r.po = b0.po ∧
      ∃ D, Drops (vals b0 ++ vals b1) (vals r) D ∧ c = D.length

/-- The invariant of the inner loop at order `po`, for pins with keys `k0` and `k1`, floor `f`,
bins from order `d` on, and the values `T` and common count `M` it started from. -/
structure MergeInv (k0 k1 : Key n) (f d po : Nat) (T : List α) (M : Int) (bins : List (Pot α))
    (mis : List Int) (rest0 rest1 : List (Pot α)) : Prop where
  left : Under k0 f rest0
  right : Under k1 f rest1
  merged : ∀ b ∈ bins, BinAt k0 b ∧ d ≤ b.po ∧ b.po < po
  sorted : (bins.map Pot.po).Pairwise (· < ·)
  below0 : ∀ b ∈ bins, ∀ c ∈ rest0, b.po < c.po
  below1 : ∀ b ∈ bins, ∀ c ∈ rest1, b.po < c.po
  drops : ∃ D, Drops T (valsOf bins ++ valsOf rest0 ++ valsOf rest1) D ∧ mis.sum = M + D.length

/-- Appending a bin above all merged bins keeps them ascending. -/
theorem sorted_concat {bins : List (Pot α)} {b : Pot α} (hs : (bins.map Pot.po).Pairwise (· < ·))
    (hb : ∀ c ∈ bins, c.po < b.po) : ((bins ++ [b]).map Pot.po).Pairwise (· < ·) := by
  simpa [List.pairwise_append] using ⟨hs, hb⟩

/-- The three cases of the inner loop keep `MergeInv`, when `rec` unites bins as `union` does,
the floor is at least `d`, and the bins below `po` lie where the two pins agree. -/
theorem mergeSteps_inv {rec : Pot α → Pot α → Option (Pot α × Int)} {k0 k1 : Key n}
    {f d po : Nat} {T : List α} {M : Int} (hrec : RecSpec rec d) (hdf : d ≤ f)
    (hpo : min po n ≤ cpl k0.bits k1.bits) : MergeSteps rec po (MergeInv k0 k1 f d po T M) where
  left bins mis b rest0 rest1 h hb hhead := by
    have hbin := h.left.bin b (List.mem_cons_self _ _)
    refine ⟨h.left.tail, h.right, ?_, sorted_concat h.sorted fun c hc => h.below0 c hc b
      (List.mem_cons_self _ _), ?_, ?_, ?_⟩
    · simp only [List.mem_append, List.mem_singleton]
      rintro c (hc | rfl)
      · exact h.merged c hc
      · exact ⟨hbin, hdf.trans (h.left.floor _ (List.mem_cons_self _ _)), hb⟩
    · simp only [List.mem_append, List.mem_singleton]
      rintro c (hc | rfl) c' hc'
      · exact h.below0 c hc c' (List.mem_cons_of_mem _ hc')
      · exact h.left.head_lt hc'
    · simp only [List.mem_append, List.mem_singleton]
      rintro c (hc | rfl) c' hc'
      · exact h.below1 c hc c' hc'
      · exact po_lt_of_sorted_head h.right.sorted hhead c' hc'
    · obtain ⟨D, hD, hm⟩ := h.drops
      exact ⟨D, by simpa using hD, hm⟩
  right bins mis rest0 b rest1 h hb hhead := by
    have hbin := h.right.bin b (List.mem_cons_self _ _)
    refine ⟨h.left, h.right.tail, ?_, sorted_concat h.sorted fun c hc => h.below1 c hc b
      (List.mem_cons_self _ _), ?_, ?_, ?_⟩
    · simp only [List.mem_append, List.mem_singleton]
      rintro c (hc | rfl)
      · exact h.merged c hc
      · refine ⟨hbin.rebase ?_, hdf.trans (h.right.floor _ (List.mem_cons_self _ _)), hb⟩
        rw [cpl_comm]; exact (lt_min hb hbin.lt).trans_le hpo
    · simp only [List.mem_append, List.mem_singleton]
      rintro c (hc | rfl) c' hc'
      · exact h.below0 c hc c' hc'
      · exact po_lt_of_sorted_head h.left.sorted hhead c' hc'
    · simp only [List.mem_append, List.mem_singleton]
      rintro c (hc | rfl) c' hc'
      · exact h.below1 c hc c' (List.mem_cons_of_mem _ hc')
      · exact h.right.head_lt hc'
    · obtain ⟨D, hD, hm⟩ := h.drops
      refine ⟨D, hD.perm_right ?_, hm⟩
      classical
      exact List.perm_iff_count.2 fun a => by
        simp only [valsOf_append, valsOf_cons, valsOf_nil, List.count_append, List.count_nil]; omega
  both bins mis b0 rest0 b1 rest1 h heq hb := by
    have hb0 := h.left.bin b0 (List.mem_cons_self _ _)
    have hb1 := h.right.bin b1 (List.mem_cons_self _ _)
    have hd := hdf.trans (h.left.floor b0 (List.mem_cons_self _ _))
    obtain ⟨r, c, hr, hbr, hrpo, D', hD', hc⟩ :=
      hrec k0 k1 b0 b1 hb0 hb1 heq hd ((lt_min (heq ▸ hb) hb0.lt).trans_le hpo)
    refine ⟨(r, c), hr, h.left.tail, h.right.tail, ?_, sorted_concat h.sorted fun c hc =>
      hrpo ▸ h.below0 c hc b0 (List.mem_cons_self _ _), ?_, ?_, ?_⟩
    · simp only [List.mem_append, List.mem_singleton]
      rintro c (hc | rfl)
      · exact h.merged c hc
      · exact ⟨hbr, hrpo ▸ hd, hrpo ▸ heq ▸ hb⟩
    · simp only [List.mem_append, List.mem_singleton]
      rintro c (hc | rfl) c' hc'
      · exact h.below0 c hc c' (List.mem_cons_of_mem _ hc')
      · exact hrpo ▸ h.left.head_lt hc'
    · simp only [List.mem_append, List.mem_singleton]
      rintro c (hc | rfl) c' hc'
      · exact h.below1 c hc c' (List.mem_cons_of_mem _ hc')
      · rw [hrpo, heq]; exact h.right.head_lt hc'
    · obtain ⟨D, hD, hm⟩ := h.drops
      classical
      refine ⟨D' ++ D, hD.trans (((hD'.frame (valsOf bins) (valsOf rest0 ++ valsOf rest1)).perm_left
        (List.perm_iff_count.2 fun a => ?_)).perm_right (by simp)), ?_⟩
      · simp only [valsOf_cons, List.count_append]; omega
      · simp [hm, hc]; ring

/-- The inner loop starts with nothing merged yet, from bins below the floor. -/
theorem MergeInv.start {k0 k1 : Key n} {f d po : Nat} {bins : List (Pot α)} {mis : List Int}
    {rest0 rest1 : List (Pot α)} (h0 : Under k0 f rest0) (h1 : Under k1 f rest1)
    (hb : ∀ b ∈ bins, BinAt k0 b ∧ d ≤ b.po ∧ b.po < f)
    (hs : (bins.map Pot.po).Pairwise (· < ·)) (hf : f ≤ po) :
    MergeInv k0 k1 f d po (valsOf bins ++ valsOf rest0 ++ valsOf rest1) mis.sum bins mis rest0
      rest1 :=
  ⟨h0, h1, fun b hb' => ⟨(hb b hb').1, (hb b hb').2.1, (hb b hb').2.2.trans_le hf⟩, hs,
    fun b hb' c hc => (hb b hb').2.2.trans_le (h0.floor c hc),
    fun b hb' c hc => (hb b hb').2.2.trans_le (h1.floor c hc), [], Drops.refl _, by simp⟩

/-- Bins that the inner loop left at its end lie at `po` or above. -/
theorem Under.raise {k : Key n} {f f' : Nat} {rest : List (Pot α)} (h : Under k f rest)
    (hh : ∀ c ∈ rest.head?, f' ≤ c.po) : Under k f' rest := by
  refine ⟨h.sorted, h.bin, ?_⟩
  cases rest with
  | nil => simp
  | cons b r =>
    have hb : f' ≤ b.po := hh b rfl
    intro c hc
    rcases List.mem_cons.1 hc with rfl | hc
    · exact hb
    · exact hb.trans (h.head_lt hc).le

/-- Bins from a floor on lie from every lower floor on. -/
theorem Under.mono {k : Key n} {f f' : Nat} {rest : List (Pot α)} (h : Under k f rest)
    (hf : f' ≤ f) : Under k f' rest :=
  ⟨h.sorted, h.bin, fun c hc => hf.trans (h.floor c hc)⟩

/-- No bins lie below every pin. -/
theorem Under.nil (k : Key n) (f : Nat) : Under k f ([] : List (Pot α)) :=
  ⟨List.Pairwise.nil, by simp, by simp⟩

/-- A bin below the pin, from the floor on and below the others, can go first. -/
theorem Under.cons {k : Key n} {f : Nat} {b : Pot α} {rest : List (Pot α)} (hb : BinAt k b)
    (hf : f ≤ b.po) (hlt : ∀ c ∈ rest, b.po < c.po) (h : Under k f rest) :
    Under k f (b :: rest) := by
  refine ⟨?_, ?_, ?_⟩
  · simpa [List.pairwise_cons] using ⟨hlt, h.sorted⟩
  · simpa using ⟨hb, h.bin⟩
  · simpa using ⟨hf, h.floor⟩

/-- Where the inner loop stopped on side 0: at the bin at `po`, with the bins above it, or before
bins that all lie above `po`. -/
theorem atPo_cases {po : Nat} {rest : List (Pot α)} (hh : ∀ c ∈ rest.head?, po ≤ c.po) :
    (atPo po rest = none ∧ higherBins po rest = rest ∧ ∀ c ∈ rest.head?, po + 1 ≤ c.po) ∨
    (∃ b r, rest = b :: r ∧ b.po = po ∧ atPo po rest = some b ∧ higherBins po rest = r) := by
  cases rest with
  | nil => simp [atPo, higherBins]
  | cons b r =>
    have := hh b rfl
    by_cases hb : b.po = po
    · exact .inr ⟨b, r, rfl, hb, by simp [atPo, hb], by simp [higherBins, hb]⟩
    · refine .inl ⟨by simp [atPo, hb], by simp [higherBins, hb], ?_⟩
      simp only [List.head?_cons, Option.mem_def, Option.some.injEq, forall_eq']
      omega

/-- The new bin `np` of a turn, the pin of side 0 with its bins above `po`, can stand below any
pin that leaves that pin at bit `po`. -/
theorem binAt_np {x0 : α} {k : Key n} {po : Nat} {higher : List (Pot α)}
    (hu : Under (address x0) (po + 1) higher) (hpo : cpl (address x0).bits k.bits = po)
    (hlt : po < n) : BinAt k ⟨some x0, higher, sizes higher + 1, po⟩ := by
  refine ⟨.node (by ring) hu.sorted (fun b hb => (hu.bin b hb).wf)
    (fun b hb => by have := hu.floor b hb; omega) (fun b hb => (hu.bin b hb).cpl_eq),
    by simpa using node_nodup hu.sorted hu.bin, hlt, ?_⟩
  simp only [vals_mk, Option.toList_some, List.mem_append, mem_valsOf, List.mem_singleton]
  rintro v (⟨c, hc, hv⟩ | rfl)
  · -- `v` leaves `x0` above `po`, so it leaves `k` where `x0` does
    have h1 : cpl k.bits (address x0).bits < cpl (address x0).bits (address v).bits := by
      rw [cpl_comm, hpo, (hu.bin c hc).cpl_eq v hv]; exact hu.floor c hc
    rw [cpl_eq_of_lt h1, cpl_comm, hpo]
  · rw [cpl_comm, hpo]

/-- Side 0's bin `b` at `po`, in a turn whose pins `x0` and `x1` differ at bit `po`: its pin `y`
agrees with `x1` beyond `po`, `defaultPof` compares the two from `b`'s order, and `np`, the pin
`x0` with the bins `r` above `po`, stands with `b`'s bins below `y` from `po` on. -/
theorem binAt_po_next {x0 x1 : α} {f po : Nat} {b : Pot α} {r : List (Pot α)}
    (hl : Under (address x0) f (b :: r)) (hbpo : b.po = po)
    (hpo : po = cpl (address x0).bits (address x1).bits) (hlt : po < n) :
    ∃ y, b.pin = some y ∧ po < cpl (address x1).bits (address y).bits ∧
      defaultPof n (address x1).bits (address y).bits b.po =
        (cpl (address x1).bits (address y).bits, decide (address x1 = address y)) ∧
      Under (address y) po (⟨some x0, r, sizes r + 1, po⟩ :: b.bins) := by
  have hb := hl.bin b (List.mem_cons_self _ _)
  obtain ⟨y, hy⟩ := hb.wf.pin_isSome
  have hk0y : cpl (address x0).bits (address y).bits = po := hbpo ▸ hb.cpl_eq y (pin_mem_vals hy)
  have hlt1 : po < cpl (address x1).bits (address y).bits := Key.lt_cpl hpo.symm hk0y hlt
  have hu : Under (address x0) (po + 1) r :=
    ⟨hl.tail.sorted, hl.tail.bin, fun c hc => hbpo ▸ hl.head_lt hc⟩
  exact ⟨y, hy, hlt1, Key.defaultPof_key (hbpo ▸ hlt1.le),
    ((hb.under hy).mono (by omega)).cons (binAt_np hu hk0y hlt) le_rfl
      fun c hc => hbpo ▸ hb.deep hc⟩

/-! ## The outer loop of `union`

Each turn merges the bins below `po`. If the pins match, the turn is the last. Otherwise side 0's
pin and its bins above `po` become `np`; then either side 0 has a bin at `po`, whose pin is the
next pin of side 1, lying where the pins of the turn agree, so `po` grows (`Turn`), or it has none
and the last turn merges all that is left below side 1's pin (`Last`). -/

/-- What a turn of `union`'s outer loop branches on, with pins `x0` and `x1` and floor `f`: `po`
and `eq` compare the pins, and both sides' bins lie from the floor on below their pins. -/
structure Turning (d f : Nat) (x0 x1 : α) (s : Zigzag α) : Prop where
  pin0 : s.pin0 = some x0
  pin1 : s.pin1 = some x1
  po : s.po = cpl (address x0).bits (address x1).bits
  eq : s.eq = decide (address x0 = address x1)
  d_le : d ≤ f
  f_le : f ≤ s.po
  left : Under (address x0) f s.rest0
  right : Under (address x1) f s.rest1

/-- What `union`'s last turn branches on: `eq` set, and both sides' bins from the floor `f` on
below the one pin `x1`. -/
structure Ending (d f : Nat) (x1 : α) (s : Zigzag α) : Prop where
  eq : s.eq = true
  d_le : d ≤ f
  left : Under (address x1) f s.rest0
  right : Under (address x1) f s.rest1

/-- The state at the start of a turn of `union`'s outer loop: a `Turning` whose union's bins lie
from `d` on below the floor, and with the two pins hold the values of `S` less those dropped, as
many as `common` and `mis` count. -/
structure Turn (S : List α) (d f : Nat) (x0 x1 : α) (s : Zigzag α) extends Turning d f x0 x1 s :
    Prop where
  merged : ∀ b ∈ s.bins, BinAt (address x0) b ∧ d ≤ b.po ∧ b.po < f
  sorted : (s.bins.map Pot.po).Pairwise (· < ·)
  drops : ∃ D, Drops S (valsOf s.bins ++ valsOf s.rest0 ++ valsOf s.rest1 ++ [x0, x1]) D ∧
    s.common + s.mis.sum = D.length

/-- The state at the start of `union`'s last turn, which merges every bin left below the pin
`x1`: an `Ending` with `po` beyond every bin, one pin left, and `common` one short. -/
structure Last (S : List α) (d f : Nat) (x1 : α) (s : Zigzag α) extends Ending d f x1 s :
    Prop where
  pin1 : s.pin1 = some x1
  po : n ≤ s.po
  f_le : f ≤ s.po
  merged : ∀ b ∈ s.bins, BinAt (address x1) b ∧ d ≤ b.po ∧ b.po < f
  sorted : (s.bins.map Pot.po).Pairwise (· < ·)
  drops : ∃ D, Drops S (valsOf s.bins ++ valsOf s.rest0 ++ valsOf s.rest1 ++ [x1]) D ∧
    s.common + 1 + s.mis.sum = D.length

/-- What the outer loop ends with, for the union's pin `xf`: the union's bins, ascending from
order `d` on below `xf`, holding with `xf` the values of `S` less those dropped, as many as
`common` and `mis` count. -/
structure Zigged (S : List α) (d : Nat) (xf : α) (z : Zigzag α) : Prop where
  merged : ∀ b ∈ z.bins, BinAt (address xf) b ∧ d ≤ b.po
  sorted : (z.bins.map Pot.po).Pairwise (· < ·)
  drops : ∃ D, Drops S (valsOf z.bins ++ [xf]) D ∧ z.common + z.mis.sum = D.length

/-- Dropping from a list drops from it with any list after it. -/
theorem Drops.append_right {c c' D : List α} (h : Drops c c' D) (g : List α) :
    Drops (c ++ g) (c' ++ g) D := by
  simpa using h.frame [] g

/-- A turn whose pins match is the last. -/
theorem Turning.ending {d f : Nat} {x0 x1 : α} {s : Zigzag α} (h : Turning d f x0 x1 s)
    (heq : s.eq = true) : Ending d f x1 s :=
  have hk : address x0 = address x1 := by simpa [h.eq] using heq
  ⟨heq, h.d_le, hk ▸ h.left, h.right⟩

/-- A turn whose pins match is the last: one of the two pins is dropped. -/
theorem Turn.last {S : List α} {d f : Nat} {x0 x1 : α} {s : Zigzag α}
    (h : Turn S d f x0 x1 s) (heq : s.eq = true) : Last S d f x1 s := by
  have hk : address x0 = address x1 := by simpa [h.eq] using heq
  obtain ⟨D, hD, hc⟩ := h.drops
  refine ⟨h.toTurning.ending heq, h.pin1, ?_, h.f_le, fun b hb => hk ▸ h.merged b hb, h.sorted,
    [x0] ++ D, hD.trans ⟨?_, ?_⟩, ?_⟩
  · rw [h.po, hk, cpl_self, (address x1).length_bits]
  · simpa using (List.Perm.swap x0 x1 []).append_left
      (valsOf s.bins ++ valsOf s.rest0 ++ valsOf s.rest1)
  · simp only [List.mem_singleton, forall_eq]
    exact ⟨x1, by simp, hk.symm⟩
  · simp; omega

/-- The state `union` starts its outer loop from branches as a turn: two nodes storing no key
twice, with pins `x0` and `x1` agreeing up to `d` and bins from order `d` on. -/
theorem Turning.start {t0 t1 : Pot α} {x0 x1 : α} {d : Nat} (h0 : Wf t0) (h1 : Wf t1)
    (hx0 : t0.pin = some x0) (hx1 : t1.pin = some x1) (hnd0 : ((vals t0).map address).Nodup)
    (hnd1 : ((vals t1).map address).Nodup) (hb0 : ∀ b ∈ t0.bins, d ≤ b.po)
    (hb1 : ∀ b ∈ t1.bins, d ≤ b.po) (hcpl : d ≤ cpl (address x0).bits (address x1).bits) :
    Turning d d x0 x1
      ⟨[], [], some x0, some x1, t0.bins, t1.bins, 0, cpl (address x0).bits (address x1).bits,
        decide (address x0 = address x1)⟩ :=
  ⟨rfl, rfl, rfl, rfl, le_rfl, hcpl, ⟨h0.sorted', fun _ hc => binAt_of_mem h0 hx0 hnd0 hc, hb0⟩,
    ⟨h1.sorted', fun _ hc => binAt_of_mem h1 hx1 hnd1 hc, hb1⟩⟩

/-- The state `union` starts its outer loop from is a turn, holding the values of both nodes. -/
theorem Turn.start {t0 t1 : Pot α} {x0 x1 : α} {d : Nat} (h0 : Wf t0) (h1 : Wf t1)
    (hx0 : t0.pin = some x0) (hx1 : t1.pin = some x1) (hnd0 : ((vals t0).map address).Nodup)
    (hnd1 : ((vals t1).map address).Nodup) (hb0 : ∀ b ∈ t0.bins, d ≤ b.po)
    (hb1 : ∀ b ∈ t1.bins, d ≤ b.po) (hcpl : d ≤ cpl (address x0).bits (address x1).bits) :
    Turn (vals t0 ++ vals t1) d d x0 x1
      ⟨[], [], some x0, some x1, t0.bins, t1.bins, 0, cpl (address x0).bits (address x1).bits,
        decide (address x0 = address x1)⟩ := by
  refine ⟨Turning.start h0 h1 hx0 hx1 hnd0 hnd1 hb0 hb1 hcpl, by simp, by simp, [], ⟨?_, by simp⟩,
    by simp⟩
  classical
  exact List.perm_iff_count.2 fun a => by
    simp only [vals_eq t0, vals_eq t1, hx0, hx1, valsOf_nil, Option.toList_some,
      List.count_append, List.count_cons, List.count_nil]; omega

section Outer

variable {rec : Pot α → Pot α → Option (Pot α × Int)} {d f : Nat} {S : List α}

/-- The last turn merges every bin left and ends with the pin `x1`, `common` made up. -/
theorem zigzag_last (hrec : RecSpec rec d) {x1 : α} {s : Zigzag α} (h : Last S d f x1 s)
    (pof : Pof) (fuel : Nat) :
    ∃ z, zigzag pof rec (fuel + 1) s = some (z, some x1) ∧ Zigged S d x1 z := by
  have hpo : min s.po n ≤ cpl (address x1).bits (address x1).bits := by
    rw [cpl_self, (address x1).length_bits]; exact min_le_right _ _
  obtain ⟨m, hm, hinv, hs0, hs1⟩ := mergeLoop_steps (mergeSteps_inv hrec h.d_le hpo) s.bins s.mis
    s.rest0 s.rest1 none none 0 0 false false (.inl rfl) (.inl rfl)
    (MergeInv.start h.left h.right h.merged h.sorted h.f_le)
  -- every bin left lies below `n`, so below `po`: none is left
  have hnil : ∀ {rest : List (Pot α)}, Under (address x1) f rest →
      (∀ c ∈ rest.head?, s.po ≤ c.po) → rest = [] := by
    intro rest hu hh
    cases rest with
    | nil => rfl
    | cons c r =>
      have := hh c rfl
      have := (hu.bin c (List.mem_cons_self _ _)).lt
      have := h.po
      omega
  have e0 := hnil hinv.left hs0.2
  have e1 := hnil hinv.right hs1.2
  obtain ⟨D, hD, hc⟩ := h.drops
  obtain ⟨D', hD', hm'⟩ := hinv.drops
  rw [e0, e1] at hD'
  simp only [zigzag, hm, Option.some_bind, h.eq, if_true, h.pin1]
  refine ⟨_, rfl, fun b hb => ⟨(hinv.merged b hb).1, (hinv.merged b hb).2.1⟩, hinv.sorted,
    D' ++ D, hD.trans (by simpa using hD'.append_right [x1]), ?_⟩
  simp; omega

/-- A turn whose pins differ leads to a turn at a greater `po`, whose pins are side 1's and that
of side 0's bin at `po`, or, when side 0 has no bin at `po`, to the last turn. -/
theorem zigzag_turn (hrec : RecSpec rec d) (hn : n ≤ maxkeylen + 1) {x0 x1 : α} {s : Zigzag α}
    (h : Turn S d f x0 x1 s) (heq : s.eq = false) (fuel : Nat) :
    ∃ s', zigzag (defaultPof n) rec (fuel + 1) s = zigzag (defaultPof n) rec fuel s' ∧
      ((∃ y, Turn S d s.po x1 y s' ∧ s.po < s'.po) ∨ Last S d s.po x1 s') := by
  have hne : address x0 ≠ address x1 := by simpa [h.eq] using heq
  have hlt : s.po < n := h.po ▸ Key.cpl_lt hne
  obtain ⟨m, hm, hinv, hs0, hs1⟩ := mergeLoop_steps (mergeSteps_inv hrec h.d_le
    (h.po ▸ min_le_left _ _)) s.bins s.mis s.rest0 s.rest1 none none 0 0 false false (.inl rfl)
    (.inl rfl) (MergeInv.start h.left h.right h.merged h.sorted h.f_le)
  have hright : Under (address x1) s.po m.rest1 := hinv.right.raise hs1.2
  have hmerged : ∀ b ∈ m.bins, BinAt (address x1) b ∧ d ≤ b.po ∧ b.po < s.po := fun b hb =>
    ⟨(hinv.merged b hb).1.rebase (h.po ▸ (hinv.merged b hb).2.2), (hinv.merged b hb).2.1,
      (hinv.merged b hb).2.2⟩
  obtain ⟨D, hD, hc⟩ := h.drops
  obtain ⟨D', hD', hm'⟩ := hinv.drops
  have hDD := hD.trans (hD'.append_right [x0, x1])
  obtain ⟨bins, mis, pin0, pin1, rest0, rest1, common, po, eq⟩ := s
  obtain rfl : pin0 = some x0 := h.pin0
  obtain rfl : pin1 = some x1 := h.pin1
  dsimp only at hm heq hlt hright hmerged hDD hc hm' ⊢
  simp only [zigzag, hm, Option.some_bind, heq, Bool.false_eq_true, if_false, hs0.1]
  rcases atPo_cases hs0.2 with ⟨hnone, hhigh, hgt⟩ | ⟨b, r, hr, hbpo, hsome, hhigh⟩
  · -- no bin at `po` on side 0: `np` joins side 1 for the last turn
    rw [hnone, hhigh]
    refine ⟨_, rfl, .inr ⟨⟨rfl, h.d_le.trans h.f_le, hright,
      (Under.nil _ _).cons (binAt_np (hinv.left.raise hgt) h.po.symm hlt) le_rfl (by simp)⟩,
      rfl, hn, by simp only; omega, hmerged, hinv.sorted, D' ++ D, hDD.perm_right ?_, ?_⟩⟩
    · classical
      exact List.perm_iff_count.2 fun a => by
        simp only [valsOf_cons, valsOf_nil, vals_mk, Option.toList_some, List.count_append,
          List.count_cons, List.count_nil]; omega
    · simp at hc ⊢; omega
  · -- the bin `b` at `po` on side 0: its pin is the next pin of side 1
    rw [hsome, hhigh]
    obtain ⟨y, hy, hlt1, hpof, hu⟩ := binAt_po_next (hr ▸ hinv.left) hbpo h.po hlt
    rw [hr] at hDD
    simp only [hy, toBytes, hpof]
    refine ⟨_, rfl, .inl ⟨y, ⟨⟨rfl, rfl, rfl, rfl, h.d_le.trans h.f_le, hlt1.le, hright, hu⟩,
      hmerged, hinv.sorted, D' ++ D, hDD.perm_right ?_, ?_⟩, hlt1⟩⟩
    · classical
      exact List.perm_iff_count.2 fun a => by
        simp only [valsOf_cons, vals_eq b, hy, vals_mk, Option.toList_some, List.count_append,
          List.count_cons, List.count_nil]; omega
    · simp at hc ⊢; omega

/-- From a turn with `n + 1 - po` turns of fuel left, the outer loop ends, with the pin of its
last turn. `po` grows at every turn but the last, and never passes `n`. -/
theorem zigzag_run (hrec : RecSpec rec d) (hn : n ≤ maxkeylen + 1) :
    ∀ (fuel : Nat) {f : Nat} {x0 x1 : α} {s : Zigzag α}, Turn S d f x0 x1 s →
      n + 1 ≤ fuel + s.po →
      ∃ z xf, zigzag (defaultPof n) rec fuel s = some (z, some xf) ∧ Zigged S d xf z
  | 0, _, x0, x1, _, h, hf => by
    have := h.po; have := Key.cpl_le (address x0) (address x1); omega
  | fuel + 1, _, x0, x1, s, h, hf => by
    cases heq : s.eq
    · obtain ⟨s', hs', ⟨y, ht, hlt⟩ | hl⟩ := zigzag_turn hrec hn h heq fuel
      · rw [hs']; exact zigzag_run hrec hn fuel ht (by omega)
      · have : s.po < n := h.po ▸ Key.cpl_lt (by simpa [h.eq] using heq)
        obtain ⟨fuel, rfl⟩ : ∃ k, fuel = k + 1 := ⟨fuel - 1, by omega⟩
        obtain ⟨z, hz, hzz⟩ := zigzag_last hrec hl (defaultPof n) fuel
        exact ⟨z, x1, hs' ▸ hz, hzz⟩
    · obtain ⟨z, hz, hzz⟩ := zigzag_last hrec (h.last heq) (defaultPof n) fuel
      exact ⟨z, x1, hz, hzz⟩

end Outer

/-! ## `union` -/

/-- What `union_spec` states of `union` with one fuel, from every floor. -/
def UnionSpecAt (fuel : Nat) : Prop :=
  ∀ (d : Nat) {t0 t1 : Pot α}, Wf t0 → Wf t1 → ((vals t0).map address).Nodup →
    ((vals t1).map address).Nodup → t0.po ≤ d → (∀ b ∈ t0.bins, d ≤ b.po) →
    (∀ b ∈ t1.bins, d ≤ b.po) → d ≤ cpl (toBytes t0.pin) (toBytes t1.pin) →
    2 * n + 4 ≤ fuel + d →
    ∃ u c, union (defaultPof n) fuel t0 t1 = some (u, c) ∧ Wf u ∧ u.po = t0.po ∧
      ((vals u).map address).Nodup ∧ ∃ D, Drops (vals t0 ++ vals t1) (vals u) D ∧ c = D.length

/-- Two bins at one order, below pins that agree beyond it, have pins that agree beyond it too:
the two pins leave the first pin at that order. -/
theorem BinAt.pin_cpl {k0 k1 : Key n} {b0 b1 : Pot α} (hbin0 : BinAt k0 b0) (hbin1 : BinAt k1 b1)
    (heq : b0.po = b1.po) (hlt : b0.po < cpl k0.bits k1.bits) :
    b0.po < cpl (toBytes b0.pin) (toBytes b1.pin) := by
  have hbin1' : BinAt k0 b1 := hbin1.rebase (by rw [cpl_comm, ← heq]; exact hlt)
  obtain ⟨y0, hy0⟩ := hbin0.wf.pin_isSome
  obtain ⟨y1, hy1⟩ := hbin1.wf.pin_isSome
  simpa [hy0, hy1, toBytes] using Key.lt_cpl (hbin0.cpl_eq y0 (pin_mem_vals hy0))
    (heq ▸ hbin1'.cpl_eq y1 (pin_mem_vals hy1)) hbin0.lt

/-- A `union` that does what `union_spec` states, with fuel to spare for one more level, unites
two bins as the inner loop needs: they lie at one order below pins agreeing beyond it, so their
own pins agree beyond it too, and the union's values leave the first pin at that order. -/
theorem recSpec_union {fuel d : Nat} (h : UnionSpecAt (α := α) fuel)
    (hf : 2 * n + 4 ≤ fuel + 1 + d) :
    RecSpec (union (defaultPof n) fuel : Pot α → Pot α → Option (Pot α × Int)) d := by
  intro k0 k1 b0 b1 hbin0 hbin1 heq hd hlt
  have hbin1' : BinAt k0 b1 := hbin1.rebase (by rw [cpl_comm, ← heq]; exact hlt)
  obtain ⟨u, c, hu, hwf, hupo, hnd, D, hD, hc⟩ := h (b0.po + 1) hbin0.wf
    hbin1.wf hbin0.nodup hbin1.nodup (by omega) (fun c hc => hbin0.deep hc)
    (fun c hc => heq ▸ hbin1.deep hc) (hbin0.pin_cpl hbin1 heq hlt) (by omega)
  refine ⟨u, c, hu, ⟨hwf, hnd, hupo ▸ hbin0.lt, fun v hv => ?_⟩, hupo, D, hD, hc⟩
  rcases List.mem_append.1 (hD.1.subset (List.mem_append_left _ hv)) with hv | hv
  · rw [hupo]; exact hbin0.cpl_eq v hv
  · rw [hupo, heq]; exact hbin1'.cpl_eq v hv

/-- `union` of two well-formed nodes that store no key twice, with bins from order `d` on and pins
agreeing up to `d`, returns with enough fuel: a well-formed node at `t0`'s order storing no key
twice, holding the values of both less those it dropped, each leaving a value with its key, and
the number of values dropped. Keys of at most `maxkeylen + 1` bits leave no bin beyond the last
turn's `po`. -/
theorem union_spec (hn : n ≤ maxkeylen + 1) :
    ∀ (fuel d : Nat) {t0 t1 : Pot α}, Wf t0 → Wf t1 → ((vals t0).map address).Nodup →
      ((vals t1).map address).Nodup → t0.po ≤ d → (∀ b ∈ t0.bins, d ≤ b.po) →
      (∀ b ∈ t1.bins, d ≤ b.po) → d ≤ cpl (toBytes t0.pin) (toBytes t1.pin) →
      2 * n + 4 ≤ fuel + d →
      ∃ u c, union (defaultPof n) fuel t0 t1 = some (u, c) ∧ Wf u ∧ u.po = t0.po ∧
        ((vals u).map address).Nodup ∧ ∃ D, Drops (vals t0 ++ vals t1) (vals u) D ∧ c = D.length
  | 0, d, t0, t1, h0, h1, _, _, _, _, _, hcpl, hf => by
    obtain ⟨x0, hx0⟩ := h0.pin_isSome
    obtain ⟨x1, hx1⟩ := h1.pin_isSome
    have := Key.cpl_le (address x0) (address x1)
    simp only [hx0, hx1, toBytes] at hcpl
    omega
  | fuel + 1, d, t0, t1, h0, h1, hnd0, hnd1, hpo, hb0, hb1, hcpl, hf => by
    obtain ⟨x0, hx0⟩ := h0.pin_isSome
    obtain ⟨x1, hx1⟩ := h1.pin_isSome
    simp only [hx0, hx1, toBytes] at hcpl
    have hcpln := Key.cpl_le (address x0) (address x1)
    -- the recursion unites two bins at one order below agreeing pins
    have hrec := recSpec_union (union_spec hn fuel) (show 2 * n + 4 ≤ fuel + 1 + d by omega)
    obtain ⟨z, xf, hz, hzz⟩ := zigzag_run hrec hn fuel
      (Turn.start h0 h1 hx0 hx1 hnd0 hnd1 hb0 hb1 hcpl) (by dsimp only; omega)
    obtain ⟨D, hD, hc⟩ := hzz.drops
    rw [union, if_neg (Wf.size_pos h0).ne', if_neg (Wf.size_pos h1).ne']
    simp only [hx0, hx1, toBytes, Key.defaultPof_key (Nat.zero_le _), hz, Option.map_some']
    have hlen := hD.1.length_eq
    simp only [List.length_append, List.length_singleton] at hlen
    refine ⟨_, _, rfl, .node ?_ hzz.sorted (fun b hb => (hzz.merged b hb).1.wf)
      (fun b hb => hpo.trans (hzz.merged b hb).2) (fun b hb => (hzz.merged b hb).1.cpl_eq), rfl,
      by simpa using node_nodup hzz.sorted fun b hb => (hzz.merged b hb).1, D, by simpa using hD,
      hc⟩
    rw [h0.size_eq_length, h1.size_eq_length, Wf.sizes_eq_length fun b hb => (hzz.merged b hb).1.wf,
      hc]
    omega

/-- Dropping only values whose key stays keeps the keys. -/
theorem Drops.keys {c u D : List α} (h : Drops c u D) (k : Key n) :
    (∃ v ∈ u, address v = k) ↔ ∃ v ∈ c, address v = k := by
  constructor
  · rintro ⟨v, hv, rfl⟩
    exact ⟨v, h.1.subset (List.mem_append_left _ hv), rfl⟩
  · rintro ⟨v, hv, rfl⟩
    rcases List.mem_append.1 (h.1.symm.subset hv) with hv | hv
    · exact ⟨v, hv, rfl⟩
    · exact h.2 v hv

/-- Of two lists that store no key twice, a list storing no key twice that drops only values whose
key stays drops one value per key the two share. -/
theorem Drops.length_eq_card {l0 l1 u D : List α} (h0 : (l0.map address).Nodup)
    (h1 : (l1.map address).Nodup) (hu : (u.map address).Nodup) (h : Drops (l0 ++ l1) u D) :
    D.length = ((l0.map address).toFinset ∩ (l1.map address).toFinset).card := by
  have hunion : (u.map address).toFinset = (l0.map address).toFinset ∪ (l1.map address).toFinset := by
    ext k
    simpa [List.mem_append, or_and_right, exists_or] using h.keys k
  have hcard := Finset.card_union_add_card_inter (l0.map address).toFinset (l1.map address).toFinset
  rw [← hunion, List.toFinset_card_of_nodup hu, List.toFinset_card_of_nodup h0,
    List.toFinset_card_of_nodup h1] at hcard
  have hlen := h.1.length_eq
  simp only [List.length_append, List.length_map] at hlen hcard
  omega

/-- The size of a valid pot counts its values. -/
theorem Valid.size_eq_length {t : Pot α} (ht : Valid t) : t.size = (vals t).length := by
  rcases ht with rfl | ⟨-, hw, -⟩
  · simp [empty, newPot]
  · exact hw.size_eq_length

/-- `union` of two valid pots, with enough fuel, returns a valid pot holding the values of both
less those it dropped, each leaving a value with its key, and the number of values dropped. -/
theorem union_drops {t0 t1 : Pot α} (h0 : Valid t0) (h1 : Valid t1) (hn : n ≤ maxkeylen + 1)
    {fuel : Nat} (hfuel : 2 * n + 4 ≤ fuel) :
    ∃ u c, union (defaultPof n) fuel t0 t1 = some (u, c) ∧ Valid u ∧
      ∃ D, Drops (vals t0 ++ vals t1) (vals u) D ∧ c = D.length := by
  obtain ⟨fuel, rfl⟩ : ∃ k, fuel = k + 1 := ⟨fuel - 1, by omega⟩
  rcases h0 with rfl | ⟨hp0, hw0, hn0⟩
  · exact ⟨t1, 0, by simp [union, empty, newPot], h1, [], by simpa using Drops.refl _, rfl⟩
  rcases h1 with rfl | ⟨hp1, hw1, hn1⟩
  · exact ⟨t0, 0, by simp [union, empty, newPot, (Wf.size_pos hw0).ne'], .inr ⟨hp0, hw0, hn0⟩, [],
      by simpa using Drops.refl _, rfl⟩
  obtain ⟨u, c, hu, hwu, hpu, hnu, D, hD, hc⟩ := union_spec hn (fuel + 1) 0 hw0 hw1 hn0 hn1
    hp0.le (fun _ _ => Nat.zero_le _) (fun _ _ => Nat.zero_le _) (Nat.zero_le _) (by omega)
  exact ⟨u, c, hu, .inr ⟨hpu.trans hp0, hwu, hnu⟩, D, hD, hc⟩

/-- `Union` of two valid pots with keys of at most `maxkeylen + 1` bits: with enough fuel it
returns a valid pot `u` and a count `c`, the keys of `u` are those of `t0` and of `t1`, every value
of `u` is a value of `t0` or of `t1`, `c` is the number of keys both store, and the size of `u`
is the sum of theirs less `c`. -/
theorem union_law {t0 t1 : Pot α} (h0 : Valid t0) (h1 : Valid t1) (hn : n ≤ maxkeylen + 1)
    {fuel : Nat} (hfuel : 2 * n + 4 ≤ fuel) :
    ∃ u c, union (defaultPof n) fuel t0 t1 = some (u, c) ∧ Valid u ∧
      (∀ k : Key n, (∃ v ∈ vals u, address v = k) ↔
        (∃ v ∈ vals t0, address v = k) ∨ ∃ v ∈ vals t1, address v = k) ∧
      (∀ v ∈ vals u, v ∈ vals t0 ∨ v ∈ vals t1) ∧
      c = (((vals t0).map address).toFinset ∩ ((vals t1).map address).toFinset).card ∧
      u.size = t0.size + t1.size - c := by
  obtain ⟨u, c, hu, hvu, D, hD, hc⟩ := union_drops h0 h1 hn hfuel
  have hcard := hD.length_eq_card h0.nodup h1.nodup hvu.nodup
  have hlen := hD.1.length_eq
  simp only [List.length_append] at hlen
  refine ⟨u, c, hu, hvu, fun k => by simpa [or_and_right, exists_or] using hD.keys k,
    fun v hv => List.mem_append.1 (hD.1.subset (List.mem_append_left _ hv)), by rw [hc, hcard], ?_⟩
  rw [hvu.size_eq_length, h0.size_eq_length, h1.size_eq_length, hc]
  omega

/-- Two pots of 2-bit keys, the second holding the key of the first and one more. -/
theorem union_law_two :
    let t0 := (add (empty : Pot (Key 2)) ⟨[true, false], rfl⟩ (defaultPof 2)).1
    let t1 := (add t0 ⟨[false, true], rfl⟩ (defaultPof 2)).1
    Valid t0 ∧ Valid t1 ∧ ∃ u c, union (defaultPof 2) 8 t0 t1 = some (u, c) ∧ Valid u ∧
      c = (((vals t0).map address).toFinset ∩ ((vals t1).map address).toFinset).card ∧
      u.size = t0.size + t1.size - c := by
  intro t0 t1
  have h0 : Valid t0 := add_valid (.inl rfl) _
  have h1 : Valid t1 := add_valid h0 _
  obtain ⟨u, c, hu, hv, -, -, hc, hs⟩ := union_law h0 h1 (by decide) (by decide : 2 * 2 + 4 ≤ 8)
  exact ⟨h0, h1, u, c, hu, hv, hc, hs⟩

/-- `m + 1` blanks and `m` blanks then a set bit share `m` bits. -/
theorem cpl_replicate_concat (m : Nat) :
    cpl (List.replicate (m + 1) false) (List.replicate m false ++ [true]) = m := by
  induction m with
  | zero => rfl
  | succ m ih => simp [List.replicate_succ] at ih ⊢; exact ih

/-- The run behind `union_drops_deep`, for any fuel: `a` and `b` differ at bit 0, so the first
turn, at order 0, leaves the bin at order 257 on side 1 and makes `a` the bin `np`; the last turn,
at `maxkeylen + 1 = 257`, merges `np` and stops at the bin at 257, which it leaves behind. -/
theorem union_leaves_bin_at_max (a b c : Key 258)
    (hab : defaultPof 258 (address a).bits (address b).bits 0 = (0, false)) (fuel : Nat) :
    union (defaultPof 258) (fuel + 3) (⟨some a, [], 1, 0⟩ : Pot (Key 258))
        ⟨some b, [⟨some c, [], 1, 257⟩], 2, 0⟩ =
      some (⟨some b, [⟨some a, [], 1, 0⟩], 3, 0⟩, 0) := by
  show union _ (fuel + 1 + 1 + 1) _ _ = _
  rw [union]
  simp only [toBytes, hab, if_neg (show (1 : Int) ≠ 0 by decide),
    if_neg (show (2 : Int) ≠ 0 by decide)]
  rw [show fuel + 2 = fuel + 1 + 1 from rfl, zigzag, mergeLoop]
  simp [readBin]
  rw [zigzag, mergeLoop]
  simp [readBin, higherBins, sizes, maxkeylen]
  rw [mergeLoop]
  simp [readBin]
  exact ⟨_, _, ⟨rfl, rfl⟩, ⟨rfl, rfl, rfl⟩, rfl⟩

/-- With keys of 258 bits, one more than `maxkeylen + 1`, a bin at order 257 is left behind by the
last turn, whose `po` is 257: the union of `{a}` and `{b, c}`, where `c` lies in `b`'s bin at 257,
loses `c` although its size counts it. -/
theorem union_drops_deep :
    let a : Key 258 := ⟨true :: List.replicate 257 false,
      by simp only [List.length_cons, List.length_replicate]⟩
    let b : Key 258 := ⟨List.replicate 258 false, List.length_replicate _ _⟩
    let c : Key 258 := ⟨List.replicate 257 false ++ [true],
      by simp only [List.length_append, List.length_replicate, List.length_singleton]⟩
    let t0 : Pot (Key 258) := ⟨some a, [], 1, 0⟩
    let t1 : Pot (Key 258) := ⟨some b, [⟨some c, [], 1, 257⟩], 2, 0⟩
    Valid t0 ∧ Valid t1 ∧ c ∈ (vals t1).map address ∧
      union (defaultPof 258) 520 t0 t1 = some (⟨some b, [⟨some a, [], 1, 0⟩], 3, 0⟩, 0) ∧
      c ∉ (vals (⟨some b, [⟨some a, [], 1, 0⟩], 3, 0⟩ : Pot (Key 258))).map address := by
  intro a b c
  have hab : defaultPof 258 (address a).bits (address b).bits 0 = (0, false) := rfl
  have hac : cpl (address a).bits (address c).bits = 0 := rfl
  have hbc : cpl (address b).bits (address c).bits = 257 := cpl_replicate_concat 257
  have hne : ∀ {k : Key 258}, cpl (address k).bits (address c).bits < 258 → c ≠ k := by
    intro k h e; rw [← e, cpl_self, (address c).length_bits] at h; omega
  have hca := hne (by rw [hac]; decide)
  have hcb := hne (by rw [hbc]; decide)
  have hk : ∀ k : Key 258, address k = k := fun _ => rfl
  clear_value a b c
  have h1 : Wf (⟨some b, [⟨some c, [], 1, 257⟩], 2, 0⟩ : Pot (Key 258)) :=
    .node rfl (by simp) (by simpa using wf_leaf c 257) (by simp) (by simpa using hbc)
  exact ⟨.inr ⟨rfl, wf_leaf a 0, by simp⟩, .inr ⟨rfl, h1, by simpa [hk] using hcb⟩, by simp [hk],
    union_leaves_bin_at_max a b c hab 517, by simp [hk, hca, hcb]⟩

end Swarm.Pot
