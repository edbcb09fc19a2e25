import Swarm.Pot.Union

/-!
# How many turns `union` takes

Every turn of `union`'s outer loop but the last takes the pin of a new bin, whose order is one
past the previous `po` and below the key length `n`. So the loop ends within `n + 1` turns, and
`union` terminates for keys of every length (`union_terminates`). The last turn runs at
`po = maxkeylen + 1`, so for keys of at most `maxkeylen + 1` bits the loop ends within
`maxkeylen + 2` turns. The inner loop ends by its measure, the bins left on both sides. The
recursion, run through `deeperOnly`, is only ever called on two bins at one order whose values
all share more leading bits than that order.

Longer keys have no bound of `maxkeylen + 2` turns. Take two chains of keys that each have a
single set bit. One chain holds the keys whose bit is at an even index, the other those at an odd
one. Every turn then takes the next key of the other chain, so with keys of 259 bits the loop
takes 259 turns (`union_turns_exceed`).
-/

namespace Swarm.Pot

/-- The state `union` starts its outer loop from: the two roots' pins and bins, at the order
`pof` gives them from 0. -/
def unionStart {α : Type} {n : Nat} [BytesAddress α n] (pof : Pof) (t0 t1 : Pot α) : Zigzag α :=
  let r := pof (toBytes t0.pin) (toBytes t1.pin) 0
  ⟨[], [], t0.pin, t1.pin, t0.bins, t1.bins, 0, r.1, r.2⟩

/-! ## Termination, for keys of every length

`union`'s loops branch on the orders and pins of its inputs' bins, never on the bins they build,
so they end whatever the recursion returns, as long as it returns (`RecEnds`). The inner loop
ends by its measure; every turn of the outer loop but the last takes a pin at a greater `po`,
below `n`, so the loop ends within `n + 1` turns (`zigzag_ends`); and every recursive call is on
two bins whose pins agree beyond their order, one level deeper (`union_ends`). -/

section Ends

variable {α : Type} {n : Nat} [BytesAddress α n]

/-- What `mergeLoop` needs of `rec` to end, from order `d` on: on two bins at one order, below
pins that agree beyond it, it returns. -/
def RecEnds (rec : Pot α → Pot α → Option (Pot α × Int)) (d : Nat) : Prop :=
  ∀ (k0 k1 : Key n) (b0 b1 : Pot α), BinAt k0 b0 → BinAt k1 b1 → b0.po = b1.po → d ≤ b0.po →
    b0.po < cpl k0.bits k1.bits → (rec b0 b1).isSome

/-- The three cases of the inner loop keep both sides' bins below their pins, from the floor on,
when `rec` returns on the bins it is given. -/
theorem mergeSteps_under {rec : Pot α → Pot α → Option (Pot α × Int)} {k0 k1 : Key n}
    {f d po : Nat} (hrec : RecEnds rec d) (hdf : d ≤ f) (hpo : min po n ≤ cpl k0.bits k1.bits) :
    MergeSteps rec po fun _ _ rest0 rest1 => Under k0 f rest0 ∧ Under k1 f rest1 where
  left _ _ _ _ _ h _ _ := ⟨h.1.tail, h.2⟩
  right _ _ _ _ _ h _ _ := ⟨h.1, h.2.tail⟩
  both _ _ b0 _ b1 _ h heq hb := by
    have hb0 := h.1.bin b0 (List.mem_cons_self _ _)
    obtain ⟨r, hr⟩ := Option.isSome_iff_exists.1 (hrec k0 k1 b0 b1 hb0
      (h.2.bin b1 (List.mem_cons_self _ _)) heq (hdf.trans (h.1.floor b0 (List.mem_cons_self _ _)))
      ((lt_min (heq ▸ hb) hb0.lt).trans_le hpo))
    exact ⟨r, hr, h.1.tail, h.2.tail⟩

variable {rec : Pot α → Pot α → Option (Pot α × Int)} {d f : Nat}

/-- The last turn ends. -/
theorem zigzag_ending (hrec : RecEnds rec d) {x1 : α} {s : Zigzag α} (h : Ending d f x1 s)
    (pof : Pof) (fuel : Nat) : (zigzag pof rec (fuel + 1) s).isSome := by
  have hpo : min s.po n ≤ cpl (address x1).bits (address x1).bits := by
    rw [cpl_self, (address x1).length_bits]; exact min_le_right _ _
  obtain ⟨m, hm, -⟩ := mergeLoop_steps (mergeSteps_under hrec h.d_le hpo) s.bins s.mis s.rest0
    s.rest1 none none 0 0 false false (.inl rfl) (.inl rfl) ⟨h.left, h.right⟩
  simp [zigzag, hm, h.eq]

/-- A turn whose pins differ leads to a turn at a greater `po`, whose pins are side 1's and that
of side 0's bin at `po`, or, when side 0 has no bin at `po`, to the last turn. -/
theorem zigzag_turning (hrec : RecEnds rec d) {x0 x1 : α} {s : Zigzag α}
    (h : Turning d f x0 x1 s) (heq : s.eq = false) (fuel : Nat) :
    ∃ s', zigzag (defaultPof n) rec (fuel + 1) s = zigzag (defaultPof n) rec fuel s' ∧
      ((∃ y, Turning d s.po x1 y s' ∧ s.po < s'.po) ∨ Ending d s.po x1 s') := by
  have hlt : s.po < n := h.po ▸ Key.cpl_lt (by simpa [h.eq] using heq)
  have hpo : min s.po n ≤ cpl (address x0).bits (address x1).bits := h.po ▸ min_le_left _ _
  obtain ⟨m, hm, ⟨hl, hr⟩, hs0, hs1⟩ := mergeLoop_steps (mergeSteps_under hrec h.d_le hpo)
    s.bins s.mis s.rest0 s.rest1 none none 0 0 false false (.inl rfl)
    (.inl rfl) ⟨h.left, h.right⟩
  have hright : Under (address x1) s.po m.rest1 := hr.raise hs1.2
  obtain ⟨bins, mis, pin0, pin1, rest0, rest1, common, po, eq⟩ := s
  obtain rfl : pin0 = some x0 := h.pin0
  obtain rfl : pin1 = some x1 := h.pin1
  dsimp only at hm heq hlt hright ⊢
  simp only [zigzag, hm, Option.some_bind, heq, Bool.false_eq_true, if_false, hs0.1]
  rcases atPo_cases hs0.2 with ⟨hnone, hhigh, hgt⟩ | ⟨b, r, hbr, hbpo, hsome, hhigh⟩
  · -- no bin at `po` on side 0: `np` joins side 1 for the last turn
    rw [hnone, hhigh]
    exact ⟨_, rfl, .inr ⟨rfl, h.d_le.trans h.f_le, hright,
      (Under.nil _ _).cons (binAt_np (hl.raise hgt) h.po.symm hlt) le_rfl (by simp)⟩⟩
  · -- the bin `b` at `po` on side 0: its pin is the next pin of side 1
    rw [hsome, hhigh]
    obtain ⟨y, hy, hlt1, hpof, hu⟩ := binAt_po_next (hbr ▸ hl) hbpo h.po hlt
    simp only [hy, toBytes, hpof]
    exact ⟨_, rfl, .inl ⟨y, ⟨rfl, rfl, rfl, rfl, h.d_le.trans h.f_le, hlt1.le, hright, hu⟩, hlt1⟩⟩

/-- From a turn with `n + 1 - po` turns of fuel left, the outer loop ends: `po` grows at every
turn but the last, and stays below `n`. -/
theorem zigzag_ends (hrec : RecEnds rec d) :
    ∀ (fuel : Nat) {f : Nat} {x0 x1 : α} {s : Zigzag α}, Turning d f x0 x1 s →
      n + 1 ≤ fuel + s.po → (zigzag (defaultPof n) rec fuel s).isSome
  | 0, _, x0, x1, _, h, hf => by
    have := h.po; have := Key.cpl_le (address x0) (address x1); omega
  | fuel + 1, _, x0, x1, s, h, hf => by
    cases heq : s.eq
    · obtain ⟨s', hs', ⟨y, ht, hlt⟩ | hl⟩ := zigzag_turning hrec h heq fuel
      · rw [hs']; exact zigzag_ends hrec fuel ht (by omega)
      · have : s.po < n := h.po ▸ Key.cpl_lt (by simpa [h.eq] using heq)
        obtain ⟨fuel, rfl⟩ : ∃ k, fuel = k + 1 := ⟨fuel - 1, by omega⟩
        rw [hs']; exact zigzag_ending hrec hl _ fuel
    · exact zigzag_ending hrec (h.ending heq) _ fuel

/-- `union` of two well-formed nodes that store no key twice, with bins from order `d` on and
pins agreeing up to `d`, returns with fuel `2n + 4 - d`, for keys of any length. -/
theorem union_ends :
    ∀ (fuel d : Nat) {t0 t1 : Pot α}, Wf t0 → Wf t1 → ((vals t0).map address).Nodup →
      ((vals t1).map address).Nodup → (∀ b ∈ t0.bins, d ≤ b.po) → (∀ b ∈ t1.bins, d ≤ b.po) →
      d ≤ cpl (toBytes t0.pin) (toBytes t1.pin) → 2 * n + 4 ≤ fuel + d →
      (union (defaultPof n) fuel t0 t1).isSome
  | 0, d, t0, t1, h0, h1, _, _, _, _, hcpl, hf => by
    obtain ⟨x0, hx0⟩ := h0.pin_isSome
    obtain ⟨x1, hx1⟩ := h1.pin_isSome
    have := Key.cpl_le (address x0) (address x1)
    simp only [hx0, hx1, toBytes] at hcpl
    omega
  | fuel + 1, d, t0, t1, h0, h1, hnd0, hnd1, hb0, hb1, hcpl, hf => by
    obtain ⟨x0, hx0⟩ := h0.pin_isSome
    obtain ⟨x1, hx1⟩ := h1.pin_isSome
    simp only [hx0, hx1, toBytes] at hcpl
    have := Key.cpl_le (address x0) (address x1)
    -- the recursion unites two bins at one order below agreeing pins, one level deeper
    have hrec : RecEnds (union (defaultPof n) fuel) d := fun k0 k1 b0 b1 hbin0 hbin1 heq hd hlt =>
      union_ends fuel (b0.po + 1) hbin0.wf hbin1.wf hbin0.nodup hbin1.nodup
        (fun _ hc => hbin0.deep hc) (fun _ hc => heq ▸ hbin1.deep hc)
        (hbin0.pin_cpl hbin1 heq hlt) (by omega)
    have hz := zigzag_ends hrec fuel (Turning.start h0 h1 hx0 hx1 hnd0 hnd1 hb0 hb1 hcpl)
      (by dsimp only; omega)
    rw [union, if_neg (Wf.size_pos h0).ne', if_neg (Wf.size_pos h1).ne']
    simpa [hx0, hx1, toBytes, Key.defaultPof_key (Nat.zero_le _)] using hz

/-- `rec` kept to the calls `union`'s recursion is meant to make: two bins at one order whose
values all share more leading bits than that order. Any other call fails. -/
def deeperOnly (rec : Pot α → Pot α → Option (Pot α × Int)) (b0 b1 : Pot α) :
    Option (Pot α × Int) :=
  if b0.po = b1.po ∧ ∀ v ∈ vals b0 ++ vals b1, ∀ w ∈ vals b0 ++ vals b1,
      b0.po < cpl (address v).bits (address w).bits then rec b0 b1
  else none

/-- Every call the inner loop makes lies within `deeperOnly`: two bins at order `p`, below pins
agreeing beyond `p`, hold values that all leave the first pin at bit `p`. -/
theorem recEnds_deeperOnly (h : RecEnds rec d) : RecEnds (deeperOnly rec) d := by
  intro k0 k1 b0 b1 hbin0 hbin1 heq hd hlt
  have hbin1' : BinAt k0 b1 := hbin1.rebase (by rw [cpl_comm, ← heq]; exact hlt)
  have hall : ∀ v ∈ vals b0 ++ vals b1, cpl k0.bits (address v).bits = b0.po := by
    intro v hv
    rcases List.mem_append.1 hv with hv | hv
    · exact hbin0.cpl_eq v hv
    · rw [heq]; exact hbin1'.cpl_eq v hv
  have hp : b0.po < n := lt_of_lt_of_le hlt (Key.cpl_le k0 k1)
  rw [deeperOnly, if_pos ⟨heq, fun v hv w hw => Key.lt_cpl (hall v hv) (hall w hw) hp⟩]
  exact h k0 k1 b0 b1 hbin0 hbin1 heq hd hlt

/-- `union` of two valid pots terminates, for keys of every length: it returns with fuel
`2n + 4`, one level of recursion for each of the `n` key bits. For two non-empty pots the outer
loop ends within `n + 1` turns, and so within `maxkeylen + 2` turns for keys of at most
`maxkeylen + 1` bits. This holds with any recursion that returns on two bins at one order below
agreeing pins (`RecEnds`), restricted by `deeperOnly` to bins whose values agree beyond their
order. -/
theorem union_terminates {t0 t1 : Pot α} (h0 : Valid t0) (h1 : Valid t1) :
    (∃ u c, union (defaultPof n) (2 * n + 4) t0 t1 = some (u, c)) ∧
      (t0.size ≠ 0 → t1.size ≠ 0 → ∀ rec, RecEnds rec 0 →
        (∃ z, zigzag (defaultPof n) (deeperOnly rec) (n + 1)
          (unionStart (defaultPof n) t0 t1) = some z) ∧
        (n ≤ maxkeylen + 1 → ∃ z, zigzag (defaultPof n) (deeperOnly rec) (maxkeylen + 2)
          (unionStart (defaultPof n) t0 t1) = some z)) := by
  rcases h0 with rfl | ⟨-, hw0, hnd0⟩
  · exact ⟨⟨t1, 0, by simp [union, empty, newPot]⟩, fun hs0 => (hs0 rfl).elim⟩
  rcases h1 with rfl | ⟨-, hw1, hnd1⟩
  · exact ⟨⟨t0, 0, by simp [union, empty, newPot, (Wf.size_pos hw0).ne']⟩,
      fun _ hs1 => (hs1 rfl).elim⟩
  obtain ⟨⟨u, c⟩, hu⟩ := Option.isSome_iff_exists.1 (union_ends (2 * n + 4) 0 hw0 hw1 hnd0 hnd1
    (fun _ _ => Nat.zero_le _) (fun _ _ => Nat.zero_le _) (Nat.zero_le _) (by omega))
  refine ⟨⟨u, c, hu⟩, fun _ _ rec hrec => ?_⟩
  obtain ⟨x0, hx0⟩ := hw0.pin_isSome
  obtain ⟨x1, hx1⟩ := hw1.pin_isSome
  -- from its start, with `n + 1` turns of fuel or more, the outer loop ends
  have hs := Turning.start (d := 0) hw0 hw1 hx0 hx1 hnd0 hnd1 (fun _ _ => Nat.zero_le _)
    (fun _ _ => Nat.zero_le _) (Nat.zero_le _)
  have hz : ∀ fuel, n + 1 ≤ fuel →
      ∃ z, zigzag (defaultPof n) (deeperOnly rec) fuel (unionStart (defaultPof n) t0 t1) = some z
      := fun fuel hf => Option.isSome_iff_exists.1 <| by
    simpa only [unionStart, hx0, hx1, toBytes, Key.defaultPof_key (Nat.zero_le _)] using
      zigzag_ends (recEnds_deeperOnly hrec) fuel hs (by dsimp only; omega)
  exact ⟨hz _ le_rfl, fun hn => hz _ (by omega)⟩

/-- Two single-value pots of 1-bit keys. -/
theorem union_terminates_one_bit :
    let t0 : Pot (Key 1) := ⟨some ⟨[true], rfl⟩, [], 1, 0⟩
    let t1 : Pot (Key 1) := ⟨some ⟨[false], rfl⟩, [], 1, 0⟩
    Valid t0 ∧ Valid t1 ∧
      ((∃ u c, union (defaultPof 1) (2 * 1 + 4) t0 t1 = some (u, c)) ∧
        (t0.size ≠ 0 → t1.size ≠ 0 → ∀ rec, RecEnds rec 0 →
          (∃ z, zigzag (defaultPof 1) (deeperOnly rec) (1 + 1)
            (unionStart (defaultPof 1) t0 t1) = some z) ∧
          (1 ≤ maxkeylen + 1 → ∃ z, zigzag (defaultPof 1) (deeperOnly rec) (maxkeylen + 2)
            (unionStart (defaultPof 1) t0 t1) = some z))) := by
  intro t0 t1
  have h0 : Valid t0 := .inr ⟨rfl, wf_leaf _ 0, List.nodup_singleton _⟩
  have h1 : Valid t1 := .inr ⟨rfl, wf_leaf _ 0, List.nodup_singleton _⟩
  exact ⟨h0, h1, union_terminates h0 h1⟩

end Ends

/-! ## Two interleaved chains

`unitKey N i` has its one set bit at `i`, so two of them agree up to the smaller index. The pot
`chainPot N M j` holds the keys `j, j + 2, …` up to `M`, each in the only bin of the one before.
The chains from 0 and from 1 are valid roots, and `union` of them swaps sides at every order: turn
`k` has the pins `k` and `k + 1` (`chainTurn`). -/

section Chains

variable {N M : Nat}

/-- The key of `N` bits whose only set bit is bit `i`. -/
def unitKey (N i : Nat) : Key N :=
  ⟨(List.replicate i false ++ true :: List.replicate (N - 1 - i) false).take N, by simp; omega⟩

/-- A common prefix of `i` equal bits adds `i` to the common-prefix length. -/
theorem cpl_replicate_append (i : Nat) (b : Bool) (u w : Bits) :
    cpl (List.replicate i b ++ u) (List.replicate i b ++ w) = i + cpl u w := by
  induction i with
  | zero => simp
  | succ i ih => simp [List.replicate_succ, ih]; omega

/-- The bits of a unit key within the key length: its set bit between blanks. -/
theorem unitKey_bits {i : Nat} (h : i < N) :
    (unitKey N i).bits = List.replicate i false ++ true :: List.replicate (N - 1 - i) false :=
  List.take_of_length_le (by simp; omega)

/-- Two unit keys share the bits below the smaller index. -/
theorem cpl_unitKey_of_lt {i j : Nat} (hij : i < j) (hj : j < N) :
    cpl (unitKey N i).bits (unitKey N j).bits = i := by
  obtain ⟨m, rfl⟩ : ∃ m, j = i + (m + 1) := ⟨j - i - 1, by omega⟩
  rw [unitKey_bits (by omega), unitKey_bits hj, List.replicate_add, List.append_assoc,
    cpl_replicate_append]
  simp [List.replicate_succ]

/-- Unit keys at distinct indices differ. -/
theorem unitKey_ne {i j : Nat} (hi : i < N) (hj : j < N) (hij : i ≠ j) :
    unitKey N i ≠ unitKey N j := fun e => by
  rcases Nat.lt_or_gt_of_ne hij with h | h
  · have := cpl_unitKey_of_lt h hj
    rw [e, cpl_self, Key.length_bits] at this; omega
  · have := cpl_unitKey_of_lt h hi
    rw [e, cpl_self, Key.length_bits] at this; omega

/-- `DefaultPof(N)` compares two unit keys from a floor up to the smaller index. -/
theorem defaultPof_unitKey {i j p : Nat} (hij : i < j) (hj : j < N) (hp : p ≤ i) :
    defaultPof N (toBytes (some (unitKey N i))) (toBytes (some (unitKey N j))) p = (i, false) := by
  show defaultPof N (unitKey N i).bits (unitKey N j).bits p = _
  rw [Key.defaultPof_key (by rw [cpl_unitKey_of_lt hij hj]; exact hp), cpl_unitKey_of_lt hij hj,
    decide_eq_false (unitKey_ne (by omega) hj (by omega))]

/-- The chain of the keys `j, j + 2, …` up to `M`: the pin `j`, and the chain from `j + 2` as
its only bin, at order `j`. -/
def chainPot (N M j : Nat) : Pot (Key N) :=
  ⟨some (unitKey N j), if j + 2 ≤ M then [chainPot N M (j + 2)] else [],
    ((M - j) / 2 + 1 : Nat), j - 2⟩
termination_by M + 2 - j

@[simp] theorem chainPot_pin (j : Nat) : (chainPot N M j).pin = some (unitKey N j) := by
  rw [chainPot]

@[simp] theorem chainPot_po (j : Nat) : (chainPot N M j).po = j - 2 := by rw [chainPot]

@[simp] theorem chainPot_size (j : Nat) : (chainPot N M j).size = ((M - j) / 2 + 1 : Nat) := by
  rw [chainPot]

/-- The bins of a chain: the chain two further on, while the keys last. -/
theorem chainPot_bins (j : Nat) :
    (chainPot N M j).bins = if j + 2 ≤ M then [chainPot N M (j + 2)] else [] := by
  rw [chainPot]

/-- The values of a chain: those of the chain two further on, while the keys last, and its pin. -/
theorem vals_chainPot (j : Nat) : vals (chainPot N M j) =
    (if j + 2 ≤ M then vals (chainPot N M (j + 2)) else []) ++ [unitKey N j] := by
  rw [vals_eq, chainPot_bins]; split <;> simp

/-- The values of the chain from `j` are unit keys from `j` on. -/
theorem mem_vals_chainPot {v : Key N} :
    ∀ {j : Nat}, v ∈ vals (chainPot N M j) →
      ∃ i, j ≤ i ∧ i ≤ max j M ∧ v = unitKey N i := by
  intro j
  induction j using chainPot.induct N M with
  | case1 j ih =>
    intro hv
    rw [vals_chainPot] at hv
    split at hv
    · rcases List.mem_append.1 hv with hv | hv
      · obtain ⟨i, h1, h2, rfl⟩ := ih ‹_› hv; exact ⟨i, by omega, by omega, rfl⟩
      · exact ⟨j, le_rfl, le_max_left _ _, List.mem_singleton.1 hv⟩
    · exact ⟨j, le_rfl, le_max_left _ _, List.mem_singleton.1 (by simpa using hv)⟩

/-- A chain of keys below the key length is well formed. -/
theorem chainPot_wf (hM : M < N) (j : Nat) : Wf (chainPot N M j) := by
  induction j using chainPot.induct N M with
  | case1 j ih =>
    rw [chainPot]
    split
    · refine .node (by rw [sizes, List.map_singleton, List.sum_singleton, chainPot_size]; omega)
        (List.pairwise_singleton _ _) (fun b hb => List.mem_singleton.1 hb ▸ ih ‹_›)
        (fun b hb => by rw [List.mem_singleton.1 hb, chainPot_po]; omega) ?_
      simp only [List.mem_singleton, forall_eq, chainPot_po]
      intro v hv
      obtain ⟨i, h1, h2, rfl⟩ := mem_vals_chainPot hv
      exact cpl_unitKey_of_lt (by omega) (by omega)
    · exact .node (by rw [sizes_nil]; omega) List.Pairwise.nil (by simp) (by simp) (by simp)

/-- A chain stores no key twice. -/
theorem chainPot_nodup (hM : M < N) (j : Nat) :
    ((vals (chainPot N M j)).map address).Nodup := by
  induction j using chainPot.induct N M with
  | case1 j ih =>
    rw [vals_chainPot, List.map_append]
    split
    · refine List.nodup_append.2 ⟨ih ‹_›, by simp, ?_⟩
      simp only [List.disjoint_singleton, List.map_cons, List.map_nil, List.mem_map, not_exists,
        not_and]
      intro v hv e
      obtain ⟨i, h1, h2, rfl⟩ := mem_vals_chainPot hv
      exact unitKey_ne (by omega) (by omega) (show i ≠ j by omega) e
    · simp

/-- The chains from 0 and from 1 are valid roots. -/
theorem chainPot_valid (hM : M < N) {j : Nat} (hj : j ≤ 1) : Valid (chainPot N M j) :=
  .inr ⟨by simp; omega, chainPot_wf hM j, chainPot_nodup hM j⟩

/-- Turn `k` of `union` of the chains from 0 and 1: the pins `k` and `k + 1`; on side 0 the rest
of the chain of `k`; on side 1 the bin `np` of `k - 1` and the rest of the chain of `k + 1`. -/
def chainTurn (N M k : Nat) (bins : List (Pot (Key N))) : Zigzag (Key N) :=
  ⟨bins, [], some (unitKey N k), some (unitKey N (k + 1)), (chainPot N M k).bins,
    ⟨some (unitKey N (k - 1)), [], 1, k - 1⟩ :: (chainPot N M (k + 1)).bins, 0, k, false⟩

variable (rec : Pot (Key N) → Pot (Key N) → Option (Pot (Key N) × Int))

/-- The first turn, at order 0, makes the pin 0 the bin `np` and moves to the pins 1 and 2. -/
theorem zigzag_chain_start (hM : M < N) (h2 : 2 ≤ M) (fuel : Nat) :
    zigzag (defaultPof N) rec (fuel + 1)
        (unionStart (defaultPof N) (chainPot N M 0) (chainPot N M 1)) =
      zigzag (defaultPof N) rec fuel (chainTurn N M 1 []) := by
  have hb0 : (chainPot N M 0).bins = [chainPot N M 2] := by rw [chainPot_bins, if_pos h2]
  have hb1 : (chainPot N M 1).bins = [] ∨ (chainPot N M 1).bins = [chainPot N M 3] := by
    rw [chainPot_bins]; split <;> simp
  have h01 := defaultPof_unitKey (show 0 < 1 by omega) (show 1 < N by omega) le_rfl
  have h12 := defaultPof_unitKey (show 1 < 2 by omega) (show 2 < N by omega) (Nat.zero_le 1)
  rw [zigzag, unionStart, chainTurn, mergeLoop]
  rcases hb1 with hb1 | hb1 <;> simp [readBin, hb0, hb1, h01, higherBins, h12]

/-- Turn `k`, below the last two keys: the inner loop moves the bin `np` of `k - 1` and stops at
the chain of `k + 2`, whose pin the next turn compares with `k + 1`. -/
theorem zigzag_chainTurn (hM : M < N) {k : Nat} (hk : 1 ≤ k) (hkM : k + 2 ≤ M) (fuel : Nat)
    (bins : List (Pot (Key N))) :
    zigzag (defaultPof N) rec (fuel + 1) (chainTurn N M k bins) =
      zigzag (defaultPof N) rec fuel
        (chainTurn N M (k + 1) (bins ++ [⟨some (unitKey N (k - 1)), [], 1, k - 1⟩])) := by
  have hb0 : (chainPot N M k).bins = [chainPot N M (k + 2)] := by rw [chainPot_bins, if_pos hkM]
  have hr1 :
      readBin k (chainPot N M (k + 1)).bins none (k - 1) false = ⟨none, k - 1, true⟩ := by
    rw [chainPot_bins]; split <;> simp [readBin]
  have hpof := defaultPof_unitKey (show k + 1 < k + 2 by omega) (show k + 2 < N by omega)
    (show k ≤ k + 1 by omega)
  have hk1 : ¬ k - 1 = k := by omega
  rw [zigzag, chainTurn, chainTurn, mergeLoop]
  simp [readBin, hb0, hk1]
  rw [mergeLoop]
  simp only [hr1]
  simp [readBin, higherBins, hpof]

/-- `j` turns from turn `k` reach turn `k + j`, while the keys last. -/
theorem zigzag_chainTurn_run (hM : M < N) :
    ∀ (j F k : Nat) (bins : List (Pot (Key N))), 1 ≤ k → k + j + 1 ≤ M →
      ∃ bins', zigzag (defaultPof N) rec (F + j) (chainTurn N M k bins) =
        zigzag (defaultPof N) rec F (chainTurn N M (k + j) bins')
  | 0, F, k, bins, _, _ => ⟨bins, rfl⟩
  | j + 1, F, k, bins, hk, hj => by
    obtain ⟨bins', h⟩ := zigzag_chainTurn_run hM j F (k + 1)
      (bins ++ [⟨some (unitKey N (k - 1)), [], 1, k - 1⟩]) (by omega) (by omega)
    refine ⟨bins', ?_⟩
    rw [← Nat.add_assoc, zigzag_chainTurn rec hM hk (by omega), h, Nat.add_right_comm,
      Nat.add_assoc]

/-- Turn `M - 1`, with the last two keys: side 0 is empty, so the pin `M` is the union's and the
last turn follows, with the pin `M - 1` as the bin `np`. -/
theorem zigzag_chainTurn_end (h2 : 2 ≤ M) (fuel : Nat) (bins : List (Pot (Key N))) :
    zigzag (defaultPof N) rec (fuel + 1) (chainTurn N M (M - 1) bins) =
      zigzag (defaultPof N) rec fuel
        ⟨bins ++ [⟨some (unitKey N (M - 2)), [], 1, M - 2⟩], [], some (unitKey N M),
          some (unitKey N M), [], [⟨some (unitKey N (M - 1)), [], 1, M - 1⟩], -1, maxkeylen + 1,
          true⟩ := by
  have hb0 : (chainPot N M (M - 1)).bins = [] := by rw [chainPot_bins, if_neg (by omega)]
  have hb1 : (chainPot N M (M - 1 + 1)).bins = [] := by rw [chainPot_bins, if_neg (by omega)]
  have hk1 : ¬ M - 1 - 1 = M - 1 := by omega
  rw [zigzag, chainTurn, mergeLoop]
  simp [readBin, hb0, hb1, hk1]
  rw [mergeLoop]
  simp [readBin, higherBins, show M - 1 - 1 = M - 2 by omega, show M - 1 + 1 = M by omega]

/-- The last turn, at `maxkeylen + 1`, stops at the bin `np` and ends with the pin `M`. -/
theorem zigzag_chain_last (h : maxkeylen + 2 ≤ M) (fuel : Nat) (bins : List (Pot (Key N))) :
    ∃ z, zigzag (defaultPof N) rec (fuel + 1)
      ⟨bins, [], some (unitKey N M), some (unitKey N M), [],
        [⟨some (unitKey N (M - 1)), [], 1, M - 1⟩], -1, maxkeylen + 1, true⟩ =
      some (z, some (unitKey N M)) := by
  rw [zigzag, mergeLoop]
  rcases h.eq_or_lt with rfl | h
  · simp [readBin]
  · simp [readBin, show ¬ M ≤ maxkeylen + 1 + 1 by omega]

/-- `union` of the chains from 0 and 1, up to a key `M` past `maxkeylen + 1`, takes `M + 1`
turns: no fewer end it, and that many end it with the pin `M`. -/
theorem zigzag_chain_turns (hM : M < N) (h : maxkeylen + 2 ≤ M) :
    (∀ F ≤ M, zigzag (defaultPof N) rec F
        (unionStart (defaultPof N) (chainPot N M 0) (chainPot N M 1)) = none) ∧
      ∃ z, zigzag (defaultPof N) rec (M + 1)
        (unionStart (defaultPof N) (chainPot N M 0) (chainPot N M 1)) =
          some (z, some (unitKey N M)) := by
  have h2 : 2 ≤ M := le_trans (by decide) h
  refine ⟨fun F hF => ?_, ?_⟩
  · obtain _ | F := F
    · rfl
    rw [zigzag_chain_start rec hM h2]
    rcases Nat.lt_or_ge (F + 1) M with hF' | hF'
    · obtain ⟨bins', hb⟩ := zigzag_chainTurn_run rec hM F 0 1 [] le_rfl (by omega)
      rw [← Nat.zero_add F, hb]; rfl
    · obtain ⟨bins', hb⟩ := zigzag_chainTurn_run rec hM (M - 2) (0 + 1) 1 [] le_rfl (by omega)
      rw [show F = 0 + 1 + (M - 2) by omega, hb, show 1 + (M - 2) = M - 1 by omega,
        zigzag_chainTurn_end rec h2]
      rfl
  · obtain ⟨bins', hb⟩ := zigzag_chainTurn_run rec hM (M - 2) (1 + 1) 1 [] le_rfl (by omega)
    rw [show M + 1 = 1 + 1 + (M - 2) + 1 by omega, zigzag_chain_start rec hM h2, hb,
      show 1 + (M - 2) = M - 1 by omega, zigzag_chainTurn_end rec h2]
    exact zigzag_chain_last rec h 0 _

end Chains

/-- With keys of 259 bits the outer loop of `union` of the chains from 0 and 1 up to 258, two
valid pots, does not end within `maxkeylen + 2` turns: it takes one more. -/
theorem union_turns_exceed :
    Valid (chainPot 259 258 0) ∧ Valid (chainPot 259 258 1) ∧
      zigzag (defaultPof 259) (union (defaultPof 259) (maxkeylen + 2)) (maxkeylen + 2)
        (unionStart (defaultPof 259) (chainPot 259 258 0) (chainPot 259 258 1)) = none ∧
      ∃ z, zigzag (defaultPof 259) (union (defaultPof 259) (maxkeylen + 2)) (maxkeylen + 3)
        (unionStart (defaultPof 259) (chainPot 259 258 0) (chainPot 259 258 1)) = some z := by
  obtain ⟨hnone, z, hz⟩ := zigzag_chain_turns (union (defaultPof 259) (maxkeylen + 2))
    (by decide : 258 < 259) (by decide)
  exact ⟨chainPot_valid (by decide) (Nat.zero_le 1), chainPot_valid (by decide) le_rfl,
    hnone _ (by decide), _, hz⟩

end Swarm.Pot
