import Swarm.Pot.Coverage

/-!
# EachNeighbourAsync

`EachNeighbourAsync(val, pof, max, maxPos, f, wait)` of pot/pot.go calls `f` on at most `max`
values of the pot no closer to `val` than `maxPos`, nearest first, each call in a goroutine. The
quota moves between `max` and `extra`: values too close to `val` are skipped and their share of
the quota is set aside in `extra` (`extra++, max--` for a pin, `max -= m, extra += m` for a bin),
`need(m, max, extra)` takes what a bin asks first from `extra`, then from `max`, and the quota
left is handed back up the recursion as `max + extra`.

The goroutines are modelled by what they are handed: each call `f(v, po)` is a pair of the
dispatched calls, listed in the order the goroutines are started, and `wg.Add(m)` adds to a
count. A goroutine on a bin calls `f` on the values its `each` visits until its quota `pm` runs
out.
-/

namespace Swarm.Pot

variable {α : Type} {n : Nat} [BytesAddress α n]

/-- `need(m, max, extra)`: uses `m` out of `extra`, and then `max` if needed, and returns the
part of `m` granted with the adjusted counts. -/
def need (m max extra : Int) : Int × Int × Int :=
  if m ≤ extra then (m, max, extra - m)
  else
    let max := max + extra - m
    if max ≤ 0 then (m + max, 0, 0) else (m, max, 0)

/-- `t.getPos(po)` for an `int` order: a negative order is below every bin. -/
def getPosInt (bins : List (Pot α)) (po : Int) : Option (Pot α) × Nat :=
  if po < 0 then (none, 0) else getPos bins po.toNat

/-- The calls a goroutine on `pn` with quota `pm` makes: `pn.each` calls `f(v, po)`, decrements
`pm` and goes on while `pm > 0`. -/
def goCalls (pn : Pot α) (pm : Int) (po : Nat) : List (α × Nat) :=
  (each (fun v (s : List (α × Nat) × Int) => ((s.1 ++ [(v, po)], s.2 - 1), decide (s.2 - 1 > 0)))
    pn ([], pm)).1.1

/-- What the iteration has dispatched: the calls to `f`, the units added to the wait group, and
the quota counts `max` and `extra`. -/
structure AsyncState (α : Type) where
  calls : List (α × Nat)
  adds : Int
  max : Int
  extra : Int

/-- A loop of `eachNeighbourAsync` that starts a goroutine on each bin in turn, with the quota
`need` grants it, every call at the order `po` when it is given and at the bin's order otherwise;
`true` when it returned because `need` granted nothing. -/
def dispatchLoop (po : Option Nat) : List (Pot α) → AsyncState α → AsyncState α × Bool
  | [], s => (s, false)
  | pn :: rest, s =>
    let r := need pn.size s.max s.extra
    if r.1 ≤ 0 then ({ s with max := r.2.1, extra := r.2.2 }, true)
    else
      dispatchLoop po rest
        ⟨s.calls ++ goCalls pn r.1 (po.getD pn.po), s.adds + r.1, r.2.1, r.2.2⟩

/-- The loop over the bins too close to `val`: each sets its share of `max` aside in `extra`. -/
def skipLoop : List (Pot α) → Int × Int → Int × Int
  | [], q => q
  | s :: rest, (max, extra) =>
    let m := if max < s.size then max else s.size
    skipLoop rest (max - m, extra + m)

/-- The end of `eachNeighbourAsync`: the calls, the units added, and the `extra` it returns,
`max + extra` after the last loop and the current `extra` at an early `return`. -/
def asyncResult (r : AsyncState α × Bool) : List (α × Nat) × Int × Int :=
  (r.1.calls, r.1.adds, if r.2 then r.1.extra else r.1.max + r.1.extra)

mutual
/-- `eachNeighbourAsync`: the calls it dispatches, the units it adds to the wait group, and the
`extra` it returns. -/
def eachNeighbourAsync (t : Pot α) (val : Key n) (pof : Pof) (max maxPos : Int) :
    List (α × Nat) × Int × Int :=
  match t with
  | ⟨pin, bins, _, tpo⟩ =>
    let c := pof (toBytes pin) val.bits tpo
    if (c.1 : Int) ≤ maxPos then
      -- `pom == po`: the pivot branch, the pin, the closer bins, then the farther bins
      let il := (getPos bins c.1).2
      let (s, ir) : AsyncState α × Int :=
        match (getPos bins c.1).1, pivotAsync val pof max maxPos c.1 bins with
        | some nb, some r =>
          (⟨r.1, r.2.1, max - (if max < nb.size then max else nb.size), r.2.2⟩, il)
        | _, _ => (⟨[], 0, max, 0⟩, if !c.2 then (il : Int) - 1 else il)
      let r := need 1 s.max s.extra
      if r.1 ≤ 0 then (s.calls, s.adds, r.2.2)
      else
        let s : AsyncState α :=
          ⟨s.calls ++ pin.toList.map (·, c.1), s.adds + 1, r.2.1, r.2.2⟩
        let r := dispatchLoop (some c.1) (bins.drop (ir + 1).toNat).reverse s
        if r.2 then asyncResult r
        else asyncResult (dispatchLoop none (bins.take il).reverse r.1)
    else
      -- `pom = maxPos`: the pin and the bins too close are skipped, then the farther bins
      let g := getPosInt bins maxPos
      let il := if g.1.isSome then g.2 + 1 else g.2
      let q := skipLoop (bins.drop il).reverse (max - 1, 1)
      asyncResult (dispatchLoop none (bins.take il).reverse ⟨[], 0, q.1, q.2⟩)

/-- `n.eachNeighbourAsync(val, pof, m, maxPos, f, wg)` on the bin `t.getPos(po)` finds, with
`m` the least of its size and `max`; nothing when there is none. -/
def pivotAsync (val : Key n) (pof : Pof) (max maxPos : Int) (po : Nat) :
    List (Pot α) → Option (List (α × Nat) × Int × Int)
  | [] => none
  | b :: bins =>
    if po > b.po then pivotAsync val pof max maxPos po bins
    else if po < b.po then none
    else some (eachNeighbourAsync b val pof (if max < b.size then max else b.size) maxPos)
end

/-- `EachNeighbourAsync`: `max` capped at the size of the pot, then `eachNeighbourAsync`; the calls
dispatched and the units added to the wait group that `wg.Wait()` waits for. -/
def EachNeighbourAsync (t : Pot α) (val : Key n) (pof : Pof) (max maxPos : Int) :
    List (α × Nat) × Int :=
  let max := if max > t.size then t.size else max
  let r := eachNeighbourAsync t val pof max maxPos
  (r.1, r.2.1)

/-! ## A quota of zero -/

/-- A goroutine with quota 1 on a bin of one value calls `f` on it. -/
theorem goCalls_single {pn : Pot α} {v : α} (h : Wf pn) (hv : vals pn = [v]) (po : Nat) :
    goCalls pn 1 po = [(v, po)] := by
  simp [goCalls, each_eq h, hv, feed]

/-- With `max = -1` and no `extra`, the next bin is granted nothing and the loop returns. -/
theorem dispatchLoop_spent (po : Option Nat) {c : Pot α} (rest : List (Pot α))
    (calls : List (α × Nat)) (adds : Int) (hc : 0 < c.size) :
    (dispatchLoop po (c :: rest) ⟨calls, adds, -1, 0⟩).1.calls = calls ∧
      (dispatchLoop po (c :: rest) ⟨calls, adds, -1, 0⟩).1.adds = adds ∧
      (dispatchLoop po (c :: rest) ⟨calls, adds, -1, 0⟩).2 = true := by
  simp only [dispatchLoop, need, if_neg (show ¬ c.size ≤ 0 by omega)]
  rw [if_pos (show -1 + 0 - c.size ≤ 0 by omega),
    if_pos (show c.size + (-1 + 0 - c.size) ≤ 0 by omega)]
  exact ⟨rfl, rfl, rfl⟩

/-- The index after the bins up to `maxPos`, when the last bin lies at `maxPos` or below: the
index `getPos` returns, one more when it found a bin at `maxPos`. -/
theorem getPosInt_last {bins : List (Pot α)} {b : Pot α} {maxPos : Int}
    (hpre : ∀ c ∈ bins, c.po < b.po) (hpos : (b.po : Int) ≤ maxPos) :
    (if (getPosInt (bins ++ [b]) maxPos).1.isSome
      then (getPosInt (bins ++ [b]) maxPos).2 + 1
      else (getPosInt (bins ++ [b]) maxPos).2) = bins.length + 1 := by
  simp only [getPosInt, if_neg (show ¬ maxPos < 0 by omega)]
  by_cases hbm : b.po = maxPos.toNat
  · rw [show getPos (bins ++ [b]) maxPos.toNat = (some b, bins.length) from
      getPos_found (fun c hc => hbm ▸ hpre c hc) hbm]
    rfl
  · have hgap : getPos ((bins ++ [b]) ++ []) maxPos.toNat = (none, (bins ++ [b]).length) :=
      getPos_gap (fun c hc => by
        rcases List.mem_append.1 hc with hc | hc
        · have := hpre c hc
          omega
        · rw [List.mem_singleton.1 hc]
          omega) (by simp)
    rw [List.append_nil] at hgap
    simp [hgap]

/-- With a quota of zero, on a valid root whose pin is closer to `val` than `maxPos`, with no bin
closer than `maxPos` and the nearest bin holding one value `v`, `EachNeighbourAsync` calls `f` on
`v`, adding one unit to the wait group: the pin sets aside one unit of the quota in `extra`
(`max` becomes -1) and `need` grants it to the bin. -/
theorem EachNeighbourAsync_zero_quota {x v : α} {bins : List (Pot α)} {b : Pot α} {size : Int}
    (ht : Valid (⟨some x, bins ++ [b], size, 0⟩ : Pot α)) (hb : vals b = [v]) (val : Key n)
    {maxPos : Int} (hpos : (b.po : Int) ≤ maxPos) (hx : maxPos < cpl (address x).bits val.bits) :
    EachNeighbourAsync (⟨some x, bins ++ [b], size, 0⟩ : Pot α) val (defaultPof n) 0 maxPos =
      ([(v, b.po)], 1) := by
  obtain ⟨-, hwf, -⟩ : _ ∧ Wf (⟨some x, bins ++ [b], size, 0⟩ : Pot α) ∧ _ := by
    rcases ht with h | h
    · simp [empty, newPot] at h
    · exact h
  have hbwf : Wf b := hwf.bin (by simp)
  have hbsize : b.size = 1 := by rw [hbwf.size_eq_length, hb]; rfl
  have hpre : ∀ c ∈ bins, c.po < b.po := by
    have := hwf.sorted'
    simp only [List.map_append, List.map_cons, List.map_nil, List.pairwise_append,
      List.mem_singleton, List.mem_map] at this
    exact fun c hc => this.2.2 _ ⟨c, hc, rfl⟩ _ rfl
  have hil := getPosInt_last hpre hpos
  have hsize : ¬ (0 : Int) > size := by have : 0 < size := hwf.size_pos; omega
  simp only [EachNeighbourAsync, if_neg hsize, eachNeighbourAsync, toBytes,
    Key.defaultPof_key (Nat.zero_le _), if_neg (show ¬ (_ : Int) ≤ maxPos from not_le.2 hx), hil]
  rw [List.drop_of_length_le (by simp), List.take_of_length_le (by simp), List.reverse_append]
  simp only [skipLoop, List.reverse_singleton, List.singleton_append, dispatchLoop, need, hbsize,
    le_refl, if_true, sub_self, show ¬ (1 : Int) ≤ 0 by decide, if_false, goCalls_single hbwf hb,
    List.append_eq, List.nil_append, Option.getD_none, zero_sub, zero_add]
  rcases hr : bins.reverse with _ | ⟨c, rest⟩
  · rfl
  · have hc : 0 < c.size := (hwf.bin (List.mem_append_left _
      (List.mem_reverse.1 (hr ▸ List.mem_cons_self c rest)))).size_pos
    obtain ⟨h₁, h₂, -⟩ := dispatchLoop_spent none rest [(v, b.po)] 1 hc
    simp only [asyncResult, h₁, h₂]

/-- The 3-bit keys `001` and `100`, the pivot `000`, and a quota of 0: one call is still dispatched.
-/
theorem EachNeighbourAsync_zero_quota_three_bits :
    Valid (⟨some ⟨[false, false, true], rfl⟩, [] ++ [⟨some ⟨[true, false, false], rfl⟩, [], 1, 0⟩], 2,
      0⟩ : Pot (Key 3)) ∧
    vals (⟨some ⟨[true, false, false], rfl⟩, [], 1, 0⟩ : Pot (Key 3)) = [⟨[true, false, false], rfl⟩] ∧
    ((0 : Nat) : Int) ≤ 1 ∧ (1 : Int) < cpl [false, false, true] [false, false, false] ∧
    EachNeighbourAsync (⟨some ⟨[false, false, true], rfl⟩,
        [] ++ [⟨some ⟨[true, false, false], rfl⟩, [], 1, 0⟩], 2, 0⟩ : Pot (Key 3))
        ⟨[false, false, false], rfl⟩ (defaultPof 3) 0 1 = ([(⟨[true, false, false], rfl⟩, 0)], 1) := by
  have ht : Valid (add (add (empty : Pot (Key 3)) ⟨[false, false, true], rfl⟩ (defaultPof 3)).1
      ⟨[true, false, false], rfl⟩ (defaultPof 3)).1 := add_valid (add_valid (.inl rfl) _) _
  exact ⟨ht, rfl, by decide, by decide,
    EachNeighbourAsync_zero_quota ht rfl ⟨[false, false, false], rfl⟩ (by decide) (by decide)⟩

end Swarm.Pot
