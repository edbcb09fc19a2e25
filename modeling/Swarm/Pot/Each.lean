import Swarm.Pot.Add

/-!
# Iterating a pot

`each`, `eachFrom`, `eachBin`, `eachBinDesc` and `eachNeighbour` of pot/pot.go. A consumer is a
Go closure; here it takes the state its closure captures and returns the next state with the
`bool` it answers, and every iterator returns the consumer's final state. The three closures that
`eachBin` and `eachBinDesc` hand out as a bin's `ValIterator` are kept as data (`ValIterator`) and
run by `ValIterator.run`.

On a well-formed pot each iterator feeds its consumer the items of a list that does not depend on
the consumer (`feed`): the values for `each` (`each_eq`), the bins of `binsOf` for `eachBin`
(`eachBin_eq`) and the pairs of `neighboursOf` for `eachNeighbour` (`eachNeighbour_eq`).
`eachBinDesc_eq` shows that `eachBinDesc` feeds the bins of `binsOf` in reverse.
-/

namespace Swarm.Pot

variable {α σ β : Type} {n : Nat} [BytesAddress α n]

/-- Feeds the items of a list to a consumer until it answers `false`: the final state, and
whether the consumer went on to the end. -/
def feed (consume : β → σ → σ × Bool) : List β → σ → σ × Bool
  | [], s => (s, true)
  | v :: vs, s =>
    let r := consume v s
    if r.2 then feed consume vs r.1 else r

/-- `consume(t.pin)`. A nil pin, which no node with values has, is passed over. -/
def consumePin (consume : α → σ → σ × Bool) : Option α → σ → σ × Bool
  | some v, s => consume v s
  | none, s => (s, true)

mutual
/-- `each`: the values of every bin in turn, then the pin; nothing on a pot of size 0. -/
def each (consume : α → σ → σ × Bool) : Pot α → σ → σ × Bool
  | ⟨pin, bins, size, _⟩, s =>
    if size = 0 then (s, false)
    else
      let r := eachOf consume bins s
      if r.2 then consumePin consume pin r.1 else r

/-- The `for _, n := range t.bins` loop of `each`. -/
def eachOf (consume : α → σ → σ × Bool) : List (Pot α) → σ → σ × Bool
  | [], s => (s, true)
  | b :: bins, s =>
    let r := each consume b s
    if r.2 then eachOf consume bins r.1 else r
end

/-- `eachFrom`: the values of the bins from the position of order `po` on, then the pin. -/
def eachFrom (consume : α → σ → σ × Bool) (t : Pot α) (po : Nat) (s : σ) : σ × Bool :=
  if t.size = 0 then (s, false)
  else
    let r := eachOf consume (t.bins.drop (getPos t.bins po).2) s
    if r.2 then consumePin consume t.pin r.1 else r

/-- The three closures `eachBin` and `eachBinDesc` give a `Bin` as its `ValIterator`:
`subPot.each`, the one that consumes only `t.pin`, and `t.eachFrom(consume, po)`. -/
inductive ValIterator (α : Type) where
  | each (t : Pot α)
  | pin (pin : Option α)
  | eachFrom (t : Pot α) (po : Nat)
deriving Repr

/-- Calls a `ValIterator` with a consumer. -/
def ValIterator.run (it : ValIterator α) (consume : α → σ → σ × Bool) (s : σ) : σ × Bool :=
  match it with
  | .each t => Pot.each consume t s
  | .pin v => consumePin consume v s
  | .eachFrom t po => Pot.eachFrom consume t po s

/-- `Bin`: a proximity order, a size, and an iterator over the bin's values. -/
structure Bin (α : Type) where
  proximityOrder : Nat
  size : Int
  valIterator : ValIterator α
deriving Repr

section EachBin

variable (pivot : Bits) (pof : Pof) (minPO : Nat) (consumeBin : Bin α → σ → σ × Bool)

mutual
/-- `eachBin`: the bins relative to `pivot` in ascending order, those below `minPO` left out. -/
def eachBin : Pot α → σ → σ
  | ⟨pin, bins, tsize, tpo⟩, s =>
    if tsize = 0 then s
    else eachBinAt ⟨pin, bins, tsize, tpo⟩ (pof (toBytes pin) pivot tpo).1 0 bins s

/-- The rest of `eachBin` on node `t` whose pin is at order `vpo` from the pivot, from the bins
`bins` on: those below `vpo` are consumed one by one while `size` sums their sizes; at the
position of `vpo` come the virtual bin of the pin and the higher bins, then the bin at `vpo`. -/
def eachBinAt (t : Pot α) (vpo : Nat) (size : Int) : List (Pot α) → σ → σ
  | [], s => if minPO ≤ vpo then (consumeBin ⟨vpo, 1, .pin t.pin⟩ s).1 else s
  | b :: bins, s =>
    if b.po < vpo then
      if b.po < minPO then eachBinAt t vpo (size + b.size) bins s
      else
        let r := consumeBin ⟨b.po, b.size, .each b⟩ s
        if r.2 then eachBinAt t vpo (size + b.size) bins r.1 else r.1
    else
      let spo := if b.po = vpo then vpo + 1 else vpo
      let size := if b.po = vpo then size + b.size else size
      let r := if minPO ≤ vpo then consumeBin ⟨vpo, t.size - size, .eachFrom t spo⟩ s else (s, true)
      if r.2 ∧ b.po = vpo then eachBin b r.1 else r.1
end

/-- The final loop of `eachBinDesc`, over the bins below the pivot's, nearest first; it ends at
the first bin below `minPO`. -/
def eachBinDescLoop : List (Pot α) → σ → σ × Bool
  | [], s => (s, true)
  | b :: pre, s =>
    if b.po < minPO then (s, true)
    else
      let r := consumeBin ⟨b.po, b.size, .each b⟩ s
      if r.2 then eachBinDescLoop pre r.1 else r

mutual
/-- `eachBinDesc`: the bins relative to `pivot` in descending order, those below `minPO` left
out; `false` when the consumer asked to stop, or the pot is empty. -/
def eachBinDesc : Pot α → σ → σ × Bool
  | ⟨pin, bins, tsize, tpo⟩, s =>
    if tsize = 0 then (s, false)
    else eachBinDescAt ⟨pin, bins, tsize, tpo⟩ (pof (toBytes pin) pivot tpo).1 [] bins s

/-- The rest of `eachBinDesc` on node `t` whose pin is at order `vpo` from the pivot, from the
bins `bins` on, `pre` holding the bins passed, nearest first. At the position of `vpo` come the
bin at `vpo`, then the virtual bin of the pin and the higher bins, then the bins passed. -/
def eachBinDescAt (t : Pot α) (vpo : Nat) (pre : List (Pot α)) : List (Pot α) → σ → σ × Bool
  | [], s =>
    let r := if minPO ≤ vpo then consumeBin ⟨vpo, 1, .pin t.pin⟩ s else (s, true)
    if r.2 then eachBinDescLoop minPO consumeBin pre r.1 else r
  | b :: bins, s =>
    if b.po < vpo then eachBinDescAt t vpo (b :: pre) bins s
    else
      let r := if b.po = vpo then eachBinDesc b s else (s, true)
      if r.2 then
        let higherPo := if b.po = vpo then vpo + 1 else vpo
        let higher := if b.po = vpo then bins else b :: bins
        let r := if minPO ≤ vpo then consumeBin ⟨vpo, 1 + sizes higher, .eachFrom t higherPo⟩ r.1
          else (r.1, true)
        if r.2 then eachBinDescLoop minPO consumeBin pre r.1 else r
      else r
end

end EachBin

/-- `EachBin`: `eachBin` when `ascending`, else `eachBinDesc`. -/
def EachBin (t : Pot α) (pivot : Bits) (pof : Pof) (minPO : Nat)
    (consumeBin : Bin α → σ → σ × Bool) (ascending : Bool) (s : σ) : σ :=
  if ascending then eachBin pivot pof minPO consumeBin t s
  else (eachBinDesc pivot pof minPO consumeBin t s).1

section EachNeighbour

variable (pivot : Bits) (pof : Pof) (consume : α → Nat → σ → σ × Bool)

/-- The loop of `eachNeighbour` over the bins below the pivot's, nearest first, each value at
the order of its bin. -/
def eachNeighbourLoop : List (Pot α) → σ → σ × Bool
  | [], s => (s, true)
  | b :: pre, s =>
    let r := each (fun v => consume v b.po) b s
    if r.2 then eachNeighbourLoop pre r.1 else r

/-- The end of `eachNeighbour` on a node: its pin at order `po`, then the values of the bins
`higher` above the pivot's, from the last bin down and all at order `po`, then the bins `pre`. -/
def eachNeighbourTail (pin : Option α) (po : Nat) (higher pre : List (Pot α)) (s : σ) :
    σ × Bool :=
  let r := consumePin (fun v => consume v po) pin s
  if r.2 then
    let r := eachOf (fun v => consume v po) higher.reverse r.1
    if r.2 then eachNeighbourLoop consume pre r.1 else r
  else r

mutual
/-- `eachNeighbour`: the values of the pot, nearest to `pivot` first, each with its order. -/
def eachNeighbour : Pot α → σ → σ × Bool
  | ⟨pin, bins, tsize, tpo⟩, s =>
    if tsize = 0 then (s, false)
    else
      let c := pof (toBytes pin) pivot tpo
      if c.2 then eachNeighbourTail consume pin c.1 [] bins.reverse s
      else eachNeighbourAt pin c.1 [] bins s

/-- The rest of `eachNeighbour` on a node with pin `pin` at order `po` from the pivot, from the
bins `bins` on, `pre` holding the bins passed, nearest first. -/
def eachNeighbourAt (pin : Option α) (po : Nat) (pre : List (Pot α)) :
    List (Pot α) → σ → σ × Bool
  | [], s => eachNeighbourTail consume pin po [] pre s
  | b :: bins, s =>
    if b.po < po then eachNeighbourAt pin po (b :: pre) bins s
    else if b.po = po then
      let r := eachNeighbour b s
      if r.2 then eachNeighbourTail consume pin po bins pre r.1 else r
    else eachNeighbourTail consume pin po (b :: bins) pre s
end

end EachNeighbour

/-! ## Feeding a list -/

@[simp] theorem feed_nil (consume : β → σ → σ × Bool) (s : σ) : feed consume [] s = (s, true) :=
  rfl

/-- Feeding one value is consuming it. -/
theorem feed_singleton (consume : β → σ → σ × Bool) (v : β) (s : σ) :
    feed consume [v] s = consume v s := by
  rcases h : consume v s with ⟨s', _ | _⟩ <;> simp [feed, h]

/-- Feeding two lists feeds the first, then the second unless the consumer stopped. -/
theorem feed_append (consume : β → σ → σ × Bool) (l₁ l₂ : List β) (s : σ) :
    feed consume (l₁ ++ l₂) s =
      (let r := feed consume l₁ s; if r.2 then feed consume l₂ r.1 else r) := by
  induction l₁ generalizing s with
  | nil => simp
  | cons v vs ih =>
    rcases h : consume v s with ⟨s', _ | _⟩ <;> simp [feed, h, ih]

/-- Feeding a value and a list consumes the value, then feeds the list unless the consumer stopped.
-/
theorem feed_cons (consume : β → σ → σ × Bool) (v : β) (l : List β) (s : σ) :
    feed consume (v :: l) s = (let r := consume v s; if r.2 then feed consume l r.1 else r) :=
  rfl

/-- A property of the state that the consumer keeps on every item of the list holds after
feeding the list. -/
theorem feed_inv {P : σ → Prop} {consume : β → σ → σ × Bool} {l : List β} {s : σ}
    (hstep : ∀ v ∈ l, ∀ s, P s → P (consume v s).1) (hs : P s) : P (feed consume l s).1 := by
  induction l generalizing s with
  | nil => exact hs
  | cons v l ih =>
    have hv := hstep v (List.mem_cons_self v l) s hs
    rw [feed_cons]
    dsimp only
    split
    · exact ih (fun w hw => hstep w (List.mem_cons_of_mem v hw)) hv
    · exact hv

/-- The items of `l` a consumer that answers `go` is given: all of them up to and including the
first it answers `false` to. -/
def presented (go : β → Bool) : List β → List β
  | [] => []
  | v :: l => if go v then v :: presented go l else [v]

/-- Feeding a consumer that records each item and answers `go` of it records the items
`presented` gives: nothing is fed after the first `false`. -/
theorem feed_record (go : β → Bool) (l acc : List β) :
    feed (fun v acc => (acc ++ [v], go v)) l acc = (acc ++ presented go l, l.all go) := by
  induction l generalizing acc with
  | nil => simp [presented]
  | cons v l ih =>
    rw [feed_cons]
    by_cases hv : go v <;> simp [presented, hv, ih]

/-! ## `each` feeds the stored values -/

/-- The loop of `each` over bins that each present their values feeds the values of all of them. -/
theorem eachOf_eq {consume : α → σ → σ × Bool} {bins : List (Pot α)}
    (h : ∀ b ∈ bins, ∀ s, each consume b s = feed consume (vals b) s) (s : σ) :
    eachOf consume bins s = feed consume (valsOf bins) s := by
  induction bins generalizing s with
  | nil => rfl
  | cons b bins ih =>
    simp only [List.mem_cons, forall_eq_or_imp] at h
    simp only [eachOf, h.1, valsOf_cons, feed_append, ih h.2]

/-- On a well-formed pot `each` feeds the stored values in order. -/
theorem each_eq {t : Pot α} (ht : Wf t) (consume : α → σ → σ × Bool) (s : σ) :
    each consume t s = feed consume (vals t) s := by
  induction ht generalizing s with
  | @node x bins size po size_eq _ bins_wf _ _ ih =>
    have hsize : size ≠ 0 := by have := Wf.sizes_eq_length bins_wf; omega
    simp only [each, hsize, if_false, eachOf_eq ih, vals_mk, feed_append, Option.toList_some,
      feed_singleton, consumePin]

/-- On a well-formed pot `eachFrom` feeds the values of the bins from the position of `po` on,
then the pin. -/
theorem eachFrom_eq {t : Pot α} (ht : Wf t) (consume : α → σ → σ × Bool) (po : Nat) (s : σ) :
    eachFrom consume t po s =
      feed consume (valsOf (t.bins.drop (getPos t.bins po).2) ++ t.pin.toList) s := by
  obtain ⟨x, hx⟩ := ht.pin_isSome
  have hbins : ∀ b ∈ t.bins.drop (getPos t.bins po).2, ∀ s, each consume b s = feed consume (vals b) s :=
    fun b hb => each_eq (ht.bin (List.mem_of_mem_drop hb)) consume
  simp only [eachFrom, ht.size_pos.ne', if_false, eachOf_eq hbins, feed_append, hx,
    Option.toList_some, feed_singleton, consumePin]

/-! ## The bins `eachBin` presents -/

section BinsOf

variable (pivot : Bits) (pof : Pof) (minPO : Nat)

mutual
/-- The bins `eachBin` presents to a consumer that always goes on: `eachBin` with the consumer
calls left out. -/
def binsOf : Pot α → List (Bin α)
  | ⟨pin, bins, tsize, tpo⟩ =>
    if tsize = 0 then []
    else binsAt ⟨pin, bins, tsize, tpo⟩ (pof (toBytes pin) pivot tpo).1 0 bins

/-- The bins `eachBinAt` presents. -/
def binsAt (t : Pot α) (vpo : Nat) (size : Int) : List (Pot α) → List (Bin α)
  | [] => if minPO ≤ vpo then [⟨vpo, 1, .pin t.pin⟩] else []
  | b :: bins =>
    if b.po < vpo then
      (if b.po < minPO then [] else [⟨b.po, b.size, .each b⟩]) ++ binsAt t vpo (size + b.size) bins
    else
      let spo := if b.po = vpo then vpo + 1 else vpo
      let size := if b.po = vpo then size + b.size else size
      (if minPO ≤ vpo then [⟨vpo, t.size - size, .eachFrom t spo⟩] else []) ++
        (if b.po = vpo then binsOf b else [])
end

/-- The bins of `binsAt` that come from bins below the pivot's: each bin not below `minPO`. -/
def lowBins (l : List (Pot α)) : List (Bin α) :=
  l.flatMap fun b => if b.po < minPO then [] else [⟨b.po, b.size, .each b⟩]

variable (consumeBin : Bin α → σ → σ × Bool)

mutual
/-- `eachBin` feeds the bins of `binsOf` to its consumer, on every pot. -/
theorem eachBin_eq : ∀ (t : Pot α) (s : σ),
    eachBin pivot pof minPO consumeBin t s = (feed consumeBin (binsOf pivot pof minPO t) s).1
  | ⟨pin, bins, tsize, tpo⟩, s => by
    simp only [eachBin, binsOf]
    split
    · rfl
    · exact eachBinAt_eq _ _ _ bins s

/-- The loop of `eachBin` from a bin on feeds the bins `binsAt` describes. -/
theorem eachBinAt_eq : ∀ (t : Pot α) (vpo : Nat) (size : Int) (bins : List (Pot α)) (s : σ),
    eachBinAt pivot pof minPO consumeBin t vpo size bins s =
      (feed consumeBin (binsAt pivot pof minPO t vpo size bins) s).1
  | t, vpo, size, [], s => by
    simp only [eachBinAt, binsAt]
    split <;> simp [feed_singleton]
  | t, vpo, size, b :: bins, s => by
    simp only [eachBinAt, binsAt]
    split
    · split
      · simpa using eachBinAt_eq t vpo (size + b.size) bins s
      · rcases h : consumeBin ⟨b.po, b.size, .each b⟩ s with ⟨s', _ | _⟩ <;>
          simp [feed, h, eachBinAt_eq t vpo (size + b.size) bins s']
    · by_cases hmin : minPO ≤ vpo <;> by_cases heq : b.po = vpo
      · rcases h : consumeBin ⟨vpo, t.size - (size + b.size), .eachFrom t (vpo + 1)⟩ s
          with ⟨s', _ | _⟩ <;> simp [feed, h, hmin, heq, eachBin_eq b s']
      · simp [hmin, heq, feed_singleton]
      · simp [hmin, heq, eachBin_eq b s]
      · simp [hmin, heq]
end

/-! ## `eachBinDesc` presents the same bins in reverse -/

/-- The bins at orders below the pivot's, for a bin and a list, are that bin, unless below `minPO`,
and those of the list. -/
theorem lowBins_cons (b : Pot α) (l : List (Pot α)) :
    lowBins minPO (b :: l) =
      (if b.po < minPO then [] else [⟨b.po, b.size, .each b⟩]) ++ lowBins minPO l := by
  simp [lowBins]

/-- The bins below the pivot's order of a reversed list are those of the list, reversed. -/
theorem lowBins_reverse (l : List (Pot α)) : lowBins minPO l.reverse = (lowBins minPO l).reverse := by
  induction l with
  | nil => rfl
  | cons b l ih => by_cases h : b.po < minPO <;> simp [lowBins, h] at ih ⊢ <;> exact ih

/-- Bins below the pivot's order come first, each as a bin of its own, before the bins the rest
describes. -/
theorem binsAt_low {t : Pot α} {vpo : Nat} {pre : List (Pot α)} (hpre : ∀ b ∈ pre, b.po < vpo)
    (size : Int) (rest : List (Pot α)) :
    binsAt pivot pof minPO t vpo size (pre ++ rest) =
      lowBins minPO pre ++ binsAt pivot pof minPO t vpo (size + sizes pre) rest := by
  induction pre generalizing size with
  | nil => simp [lowBins]
  | cons b pre ih =>
    simp only [List.mem_cons, forall_eq_or_imp] at hpre
    simp [binsAt, hpre.1, ih hpre.2, lowBins_cons, add_assoc]

/-- The descending loop passes the bins below the pivot's order to its accumulator. -/
theorem eachBinDescAt_low {t : Pot α} {vpo : Nat} {pre : List (Pot α)}
    (hpre : ∀ b ∈ pre, b.po < vpo) (acc rest : List (Pot α)) (s : σ) :
    eachBinDescAt pivot pof minPO consumeBin t vpo acc (pre ++ rest) s =
      eachBinDescAt pivot pof minPO consumeBin t vpo (pre.reverse ++ acc) rest s := by
  induction pre generalizing acc with
  | nil => rfl
  | cons b pre ih =>
    simp only [List.mem_cons, forall_eq_or_imp] at hpre
    simp [eachBinDescAt, hpre.1, ih hpre.2]

/-- The final loop of `eachBinDesc` over bins in descending order feeds their `lowBins`: it
stops at the first bin below `minPO`, below which all the rest lie. -/
theorem eachBinDescLoop_eq {l : List (Pot α)} (hl : (l.map Pot.po).Pairwise (· > ·)) (s : σ) :
    eachBinDescLoop minPO consumeBin l s = feed consumeBin (lowBins minPO l) s := by
  induction l generalizing s with
  | nil => rfl
  | cons b l ih =>
    simp only [List.map_cons, List.pairwise_cons, List.mem_map] at hl
    by_cases hb : b.po < minPO
    · have hlow : lowBins minPO l = [] := by
        simp only [lowBins, List.flatMap_eq_nil_iff, ite_eq_left_iff, List.cons_ne_nil]
        exact fun c hc hc' => hc' (by have := hl.1 _ ⟨c, hc, rfl⟩; omega)
      simp [eachBinDescLoop, hb, lowBins_cons, hlow]
    · rcases h : consumeBin ⟨b.po, b.size, .each b⟩ s with ⟨s', _ | _⟩ <;>
        simp [eachBinDescLoop, hb, lowBins_cons, feed, h, ih hl.2]

/-- On a well-formed pot `eachBinDesc` feeds the bins of `binsOf` in reverse. -/
theorem eachBinDesc_eq {t : Pot α} (ht : Wf t) (s : σ) :
    eachBinDesc pivot pof minPO consumeBin t s =
      feed consumeBin (binsOf pivot pof minPO t).reverse s := by
  induction ht generalizing s with
  | @node x bins size po size_eq sorted bins_wf _ _ ih =>
    have hsize : size ≠ 0 := by have := Wf.sizes_eq_length bins_wf; omega
    have hdesc : ∀ {pre rest : List (Pot α)}, bins = pre ++ rest →
        ((pre.reverse).map Pot.po).Pairwise (· > ·) := by
      rintro pre rest rfl
      rw [List.map_append, List.pairwise_append] at sorted
      simpa [List.pairwise_reverse] using sorted.1
    simp only [eachBinDesc, binsOf, hsize, if_false]
    rcases bins_split bins (pof (toBytes (some x)) pivot po).1 with
      ⟨pre, b, post, hbins, hpre, hb⟩ | ⟨pre, post, hbins, hpre, hpost⟩
    · have hsz : size - (sizes pre + b.size) = 1 + sizes post := by
        rw [size_eq, hbins]; simp; omega
      have hloop := eachBinDescLoop_eq minPO consumeBin (hdesc hbins)
      have ihb := ih b (by rw [hbins]; simp)
      subst hbins
      rw [eachBinDescAt_low pivot pof minPO consumeBin hpre, binsAt_low pivot pof minPO hpre]
      by_cases hmin : minPO ≤ (pof (toBytes (some x)) pivot po).1 <;>
        simp [eachBinDescAt, binsAt, hb, ihb, hsz, hloop, lowBins_reverse, feed_append, hmin, feed_cons,
          feed_singleton]
    · have hloop := eachBinDescLoop_eq minPO consumeBin (hdesc hbins)
      subst hbins
      rw [eachBinDescAt_low pivot pof minPO consumeBin hpre, binsAt_low pivot pof minPO hpre]
      rcases post with _ | ⟨c, post⟩
      · by_cases hmin : minPO ≤ (pof (toBytes (some x)) pivot po).1 <;>
          simp [eachBinDescAt, binsAt, hloop, lowBins_reverse, feed_append, hmin, feed_singleton, feed_cons]
      · have hc : (pof (toBytes (some x)) pivot po).1 < c.po := hpost c (by simp)
        have hsz : size - sizes pre = 1 + sizes (c :: post) := by rw [size_eq]; simp; omega
        by_cases hmin : minPO ≤ (pof (toBytes (some x)) pivot po).1 <;>
          simp [eachBinDescAt, binsAt, hloop, lowBins_reverse, feed_append, hmin, feed_singleton, feed_cons,
            hc, hc.ne', Nat.not_lt.2 hc.le, hsz]

end BinsOf

/-! ## The values `eachNeighbour` presents -/

section NeighboursOf

variable (pivot : Bits) (pof : Pof)

/-- The pairs `eachNeighbourTail` feeds. -/
def neighboursTail (pin : Option α) (po : Nat) (higher pre : List (Pot α)) : List (α × Nat) :=
  (pin.toList ++ valsOf higher.reverse).map (fun v => (v, po)) ++
    pre.flatMap fun b => (vals b).map fun v => (v, b.po)

mutual
/-- The values `eachNeighbour` presents with their orders, to a consumer that always goes on. -/
def neighboursOf : Pot α → List (α × Nat)
  | ⟨pin, bins, tsize, tpo⟩ =>
    if tsize = 0 then []
    else
      let c := pof (toBytes pin) pivot tpo
      if c.2 then neighboursTail pin c.1 [] bins.reverse
      else neighboursAt pin c.1 [] bins

/-- The pairs `eachNeighbourAt` presents. -/
def neighboursAt (pin : Option α) (po : Nat) (pre : List (Pot α)) : List (Pot α) → List (α × Nat)
  | [] => neighboursTail pin po [] pre
  | b :: bins =>
    if b.po < po then neighboursAt pin po (b :: pre) bins
    else if b.po = po then neighboursOf b ++ neighboursTail pin po bins pre
    else neighboursTail pin po (b :: bins) pre
end

variable (consume : α → Nat → σ → σ × Bool)

/-- Feeding the images of a list is feeding the list to the consumer composed with the map. -/
theorem feed_map {γ : Type} (c : β → σ → σ × Bool) (f : γ → β) (l : List γ) (s : σ) :
    feed c (l.map f) s = feed (fun v => c (f v)) l s := by
  induction l generalizing s with
  | nil => rfl
  | cons v l ih => simp only [List.map_cons, feed, ih]

/-- The loop of `eachNeighbour` over well-formed bins feeds each of their values with its bin's
order. -/
theorem eachNeighbourLoop_eq {pre : List (Pot α)} (h : ∀ b ∈ pre, Wf b) (s : σ) :
    eachNeighbourLoop consume pre s =
      feed (fun p => consume p.1 p.2) (pre.flatMap fun b => (vals b).map fun v => (v, b.po)) s := by
  induction pre generalizing s with
  | nil => rfl
  | cons b pre ih =>
    simp only [List.mem_cons, forall_eq_or_imp] at h
    simp only [eachNeighbourLoop, each_eq h.1, List.flatMap_cons, feed_append, feed_map,
      ih h.2]

/-- The tail of `eachNeighbour` feeds the values `neighboursTail` lists. -/
theorem eachNeighbourTail_eq {pin : Option α} {po : Nat} {higher pre : List (Pot α)}
    (hh : ∀ b ∈ higher, Wf b) (hp : ∀ b ∈ pre, Wf b) (s : σ) :
    eachNeighbourTail consume pin po higher pre s =
      feed (fun p => consume p.1 p.2) (neighboursTail pin po higher pre) s := by
  have hr : ∀ b ∈ higher.reverse, ∀ s, each (fun v => consume v po) b s =
      feed (fun v => consume v po) (vals b) s := fun b hb => each_eq (hh b (List.mem_reverse.1 hb)) _
  cases pin <;>
    simp [eachNeighbourTail, neighboursTail, consumePin, eachOf_eq hr, feed_append, feed_map,
      eachNeighbourLoop_eq consume hp, feed_cons]

/-- The loop of `eachNeighbour` from a bin on feeds the values `neighboursAt` lists, when the bins
present theirs. -/
theorem eachNeighbourAt_eq {pin : Option α} {po : Nat} :
    ∀ {pre bins : List (Pot α)}, (∀ b ∈ pre, Wf b) → (∀ b ∈ bins, Wf b) →
      (∀ b ∈ bins, ∀ s, eachNeighbour pivot pof consume b s =
        feed (fun p => consume p.1 p.2) (neighboursOf pivot pof b) s) → ∀ s,
      eachNeighbourAt pivot pof consume pin po pre bins s =
        feed (fun p => consume p.1 p.2) (neighboursAt pivot pof pin po pre bins) s
  | pre, [], hp, _, _, s => by
    exact eachNeighbourTail_eq consume (List.forall_mem_nil _) hp s
  | pre, b :: bins, hp, hb, ih, s => by
    simp only [List.mem_cons, forall_eq_or_imp] at hb ih
    simp only [eachNeighbourAt, neighboursAt]
    split
    · exact eachNeighbourAt_eq (by simpa using ⟨hb.1, hp⟩) hb.2 ih.2 s
    · split
      · simp only [ih.1, feed_append, eachNeighbourTail_eq consume hb.2 hp]
      · exact eachNeighbourTail_eq consume (by simpa using hb) hp s

/-- On a well-formed pot `eachNeighbour` feeds the pairs of `neighboursOf`. -/
theorem eachNeighbour_eq {t : Pot α} (ht : Wf t) (s : σ) :
    eachNeighbour pivot pof consume t s =
      feed (fun p => consume p.1 p.2) (neighboursOf pivot pof t) s := by
  induction ht generalizing s with
  | @node x bins size po size_eq _ bins_wf _ _ ih =>
    have hsize : size ≠ 0 := by have := Wf.sizes_eq_length bins_wf; omega
    simp only [eachNeighbour, neighboursOf, hsize, if_false]
    split
    · exact eachNeighbourTail_eq consume (List.forall_mem_nil _)
        (fun b hb => bins_wf b (List.mem_reverse.1 hb)) s
    · exact eachNeighbourAt_eq pivot pof consume (List.forall_mem_nil _) bins_wf ih s

end NeighboursOf

/-- The consumer that records every bin it is given and always goes on. -/
def recordBin (b : Bin α) (l : List (Bin α)) : List (Bin α) × Bool := (l ++ [b], true)

/-- A consumer that records every bin takes them all. -/
theorem feed_recordBin (l acc : List (Bin α)) : feed recordBin l acc = (acc ++ l, true) := by
  induction l generalizing acc with
  | nil => simp
  | cons b l ih => simp [feed, recordBin, ih]

/-- What a consumer can learn of a bin: its order, its size, and the values its iterator
yields. -/
def Bin.view (b : Bin α) : Nat × Int × List α :=
  (b.proximityOrder, b.size, (b.valIterator.run (fun v l => (l ++ [v], true)) []).1)

/-- On a valid pot, for every pivot, proximity function and `minPO`, `EachBin` descending
presents the bins that `EachBin` ascending presents, in reverse. -/
theorem eachBinDesc_presents_reverse {t : Pot α} (ht : Valid t) (pivot : Bits) (pof : Pof)
    (minPO : Nat) :
    (EachBin t pivot pof minPO recordBin false []).map Bin.view =
      ((EachBin t pivot pof minPO recordBin true []).map Bin.view).reverse := by
  rcases ht with rfl | ⟨-, hwf, -⟩
  · simp [EachBin, eachBin, eachBinDesc, empty, newPot]
  · simp [EachBin, eachBin_eq, eachBinDesc_eq _ _ _ _ hwf, feed_recordBin, List.map_reverse]

/-- Two 2-bit keys: the descending walk of `EachBin` presents the ascending one reversed. -/
theorem eachBinDesc_presents_reverse_two :
    Valid (add (add (empty : Pot (Key 2)) ⟨[true, false], rfl⟩ (defaultPof 2)).1
        ⟨[false, true], rfl⟩ (defaultPof 2)).1 ∧
      (EachBin (add (add (empty : Pot (Key 2)) ⟨[true, false], rfl⟩ (defaultPof 2)).1
          ⟨[false, true], rfl⟩ (defaultPof 2)).1 [false, false] (defaultPof 2) 0 recordBin false
          []).map Bin.view =
        ((EachBin (add (add (empty : Pot (Key 2)) ⟨[true, false], rfl⟩ (defaultPof 2)).1
          ⟨[false, true], rfl⟩ (defaultPof 2)).1 [false, false] (defaultPof 2) 0 recordBin true
          []).map Bin.view).reverse :=
  have ht := add_valid (add_valid (.inl rfl) _) _
  ⟨ht, eachBinDesc_presents_reverse ht _ _ _⟩

end Swarm.Pot
