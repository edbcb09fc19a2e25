import Swarm.Network.Flags

/-!
# SuggestPeer

`SuggestPeer` of network/kademlia.go in its two phases. The first runs `binConsumer` over the
bins of the default conns, ascending from the base, and collects the unsaturated orders by their
size, with the saturation depth; the orders from the last bin up to that of the nearest known
address count as empty bins. The second goes through the sizes from 0 up, and for each through
the bins of the default addrs at the orders collected for it, asking `callable` of each entry
until one is callable (`suggestPeerInBin`).

`callable` reads the clock and `rand.Int63n(300000)`: the readings are `draws` of the number of
entries asked before. The retry count that `callable` increments through the entry's pointer is
the entry's replacement in addrs, by `Add`, when the search ends: at most one entry is callable.

The main theorem, `suggestPeer_unconnected`, says that on every table reached from `NewKademlia`
by calls that keep live addresses live, for every outcome of the draws, a suggested address is
the address of an entry of the default addrs that is not connected.
-/

namespace Swarm.Network

open Pot

/-! ## The first phase -/

/-- The variables of `SuggestPeer` that its `binConsumer` changes: the map `saturation` from a
bin size to the unsaturated orders of that size, as its entries in the order their keys were
first set; `lastPO`; `saturationDepth`; `pastDepth`; and `currentMaxBinSize`. -/
structure Phase1 where
  saturation : List (Int × List Nat)
  lastPO : Nat
  saturationDepth : Int
  pastDepth : Bool
  currentMaxBinSize : Int
deriving Repr

/-- `saturation[size] = append(saturation[size], po)`. -/
def appendSat : List (Int × List Nat) → Int → Nat → List (Int × List Nat)
  | [], size, po => [(size, [po])]
  | (s, l) :: m, size, po =>
    if s = size then (s, l ++ [po]) :: m else (s, l) :: appendSat m size po

/-- One turn of `binConsumer`'s loop over the empty bins it skipped, at order `lastPO`. -/
def skipEmptyBin (s : Phase1) (lastPO : Nat) : Phase1 :=
  { s with
    saturation := appendSat s.saturation 0 lastPO
    saturationDepth := if s.saturationDepth = -1 then lastPO else s.saturationDepth
    pastDepth := true }

/-- A consumer whose step can panic or not end, run on a state that records either: it stops at
the first panic or endless loop. -/
def guarded {β σ : Type} (consume : β → σ → Option (Except String (σ × Bool))) (b : β) :
    Option (Except String σ) → Option (Except String σ) × Bool
  | some (.ok s) =>
    match consume b s with
    | some (.ok (s, go)) => (some (.ok s), go)
    | some (.error e) => (some (.error e), false)
    | none => (none, false)
  | r => (r, false)

/-- The loop `for delta := timeAgo; delta > RetryInterval; delta /= div { retries++ }` of
`callable`, in `int64` arithmetic, for at most `fuel` turns: `none` when they run out, the loop
not ending. -/
def retriesLoop (retryInterval div : Int) : Nat → Int → Int → Option (Except String Int)
  | 0, delta, retries => if delta > retryInterval then none else some (pure retries)
  | fuel + 1, delta, retries =>
    if delta > retryInterval then
      if div = 0 then some (throw "runtime error: integer divide by zero")
      else retriesLoop retryInterval div fuel (toInt64 (delta.tdiv div)) (toInt64 (retries + 1))
    else some (pure retries)

/-- `bins[i]`, which panics when `i` is out of range. -/
def index (bins : List Nat) (i : Int) : Except String Nat :=
  if h : 0 ≤ i ∧ i.toNat < bins.length then pure (bins.get ⟨i.toNat, h.2⟩)
  else throw ("runtime error: index out of range [" ++ toString i ++ "] with length " ++
    toString bins.length)

/-- The loop `for ; cur < len(bins) && curPO < po; cur++ { curPO = bins[cur] }`, on `rest`, the
orders of `bins` from `cur` on (`cur` is not negative: `bins[cur]` was read before). -/
def skipLoop (po : Nat) : List Nat → Int → Nat → Int × Nat
  | [], cur, curPO => (cur, curPO)
  | b :: rest, cur, curPO => if curPO < po then skipLoop po rest (cur + 1) b else (cur, curPO)

/-- The variables of `SuggestPeer`'s second phase for one size: `cur`, `curPO`, the number of
entries asked so far, and the entry found. -/
structure Phase2 where
  cur : Int
  curPO : Nat
  asked : Nat
  suggestedPeer : Option Entry

namespace Kademlia

/-- `binConsumer` of `SuggestPeer`, with the neighbourhood radius `radius`. -/
def binConsumer (k : Kademlia) (radius : Int) (bin : Bin Entry) (s : Phase1) : Phase1 × Bool :=
  let po := bin.proximityOrder
  let expectedMinBinSize := k.expectedMinBinSize po
  let s := if s.currentMaxBinSize < expectedMinBinSize then
      { s with currentMaxBinSize := expectedMinBinSize } else s
  let s := (List.range' s.lastPO (po - s.lastPO)).foldl skipEmptyBin s
  let s := { s with lastPO := po + 1, pastDepth := s.pastDepth || decide (radius ≤ po) }
  let size := if s.pastDepth ∧ bin.size ≥ expectedMinBinSize then expectedMinBinSize - 1
    else bin.size
  if size < expectedMinBinSize then
    ({ s with
      saturationDepth := if s.saturationDepth = -1 then po else s.saturationDepth
      saturation := appendSat s.saturation size po }, true)
  else (s, true)

/-- The first phase of `SuggestPeer`: `binConsumer` over the bins of the default conns. -/
def suggestPeerPhase1 (k : Kademlia) : Phase1 :=
  let radius := neighbourhoodRadiusForPot k.defaultIndex.conns k.params.neighbourhoodSize k.base
  let s : Phase1 := ⟨[], 0, -1, false, k.params.minBinSize⟩
  match k.defaultIndex.conns with
  | none => s
  | some t => EachBin t k.base.bits pof 0 (k.binConsumer radius) true s

/-- `nearestAddrAt`: the order of the first address `EachNeighbour` gives of the default addrs,
0 when there is none. -/
def nearestAddrAt (k : Kademlia) : Nat :=
  match k.defaultIndex.addrs with
  | none => 0
  | some t => (eachNeighbour k.base.bits pof (fun _ po _ => (po, false)) t 0).1

/-- The loop that adds the orders from `lastPO` up to `nearestAddrAt` to `saturation[0]`. -/
def addNearest (saturation : List (Int × List Nat)) (lastPO nearestAddrAt : Nat) :
    List (Int × List Nat) :=
  (List.range' lastPO (nearestAddrAt + 1 - lastPO)).foldl (fun m q => appendSat m 0 q) saturation

/-! ## The second phase -/

/-- `callable`, with `now` the clock reading and `rnd` the value of `rand.Int63n(300000)`, in
`int64` arithmetic; `none` when its loop does not end. Its fuel, `|timeAgo| + 2` turns, is more
than a loop that ends takes: with a divisor of absolute value 2 or more `delta` halves until it
is 0, and with one of 1 or -1 the loop ends within two turns or never. -/
def callable (k : Kademlia) (e : Entry) (now : Int) (rnd : Fin 300000) :
    Option (Except String Bool) :=
  if e.conn.isSome ∨ e.retries > k.params.maxRetries then some (pure false)
  else
    let timeAgo := timeSince now e.seenAt
    let div := toInt64 k.params.retryExponent
    let div := toInt64 (div + (toInt64 ((150000 - (rnd : Int)) * div)).tdiv 1000000)
    (retriesLoop k.params.retryInterval div (timeAgo.natAbs + 2) timeAgo 0).map fun r => do
      let retries ← r
      if retries < e.retries then pure false
      else pure (match k.params.reachable with
        | some reachable => reachable e.bzzAddr
        | none => true)

/-- The consumer of `suggestPeerInBin` on the number of entries asked and the entry found: an
entry is found when it is callable, and the search stops there. -/
def callableConsumer (k : Kademlia) (draws : Nat → Int × Fin 300000) (e : Entry)
    (s : Nat × Option Entry) : Option (Except String ((Nat × Option Entry) × Bool)) :=
  (k.callable e (draws s.1).1 (draws s.1).2).map
    (·.map fun c => ((s.1 + 1, if c then some e else none), !c))

/-- `suggestPeerInBin`, `n` entries asked before: the entries asked after, and the callable
entry found. -/
def suggestPeerInBin (k : Kademlia) (draws : Nat → Int × Fin 300000) (bin : Bin Entry) (n : Nat) :
    Option (Except String (Nat × Option Entry)) :=
  (bin.valIterator.run (guarded (k.callableConsumer draws)) (some (.ok (n, none)))).1

/-- The bin consumer of the second phase, for the orders `bins` of one size. -/
def suggestConsumer (k : Kademlia) (draws : Nat → Int × Fin 300000) (bins : List Nat)
    (bin : Bin Entry) (s : Phase2) : Option (Except String (Phase2 × Bool)) :=
  match index bins s.cur with
  | .error e => some (throw e)
  | .ok curPO =>
    let po := bin.proximityOrder
    let found (cur : Int) : Option (Except String (Phase2 × Bool)) :=
      (k.suggestPeerInBin draws bin s.asked).map (·.map fun r =>
        (⟨cur, po, r.1, r.2⟩, decide (cur < bins.length) && r.2.isNone))
    if curPO = po then found (s.cur + 1)
    else
      let (cur, curPO) := skipLoop po (bins.drop s.cur.toNat) s.cur curPO
      if po < curPO then some (pure (⟨cur - 1, curPO, s.asked, s.suggestedPeer⟩, true))
      else if curPO < po then some (pure (⟨cur, curPO, s.asked, s.suggestedPeer⟩, false))
      else found cur

/-- The loop of the second phase over the sizes `sizes`, `n` entries asked before, on the
default addrs `addrs`: for each size with unsaturated orders, the bins of addrs from the first
of them on, until an entry is found. -/
def suggestLoop (k : Kademlia) (draws : Nat → Int × Fin 300000)
    (saturation : List (Int × List Nat)) (addrs : Option (Pot Entry)) :
    List Nat → Nat → Option (Except String (Nat × Option Entry))
  | [], n => some (pure (n, none))
  | size :: sizes, n =>
    match saturation.lookup (size : Int) with
    | none => suggestLoop k draws saturation addrs sizes n
    | some bins =>
      match index bins 0 with
      | .error e => some (throw e)
      | .ok curPO =>
        let s : Option (Except String Phase2) := some (pure ⟨0, curPO, n, none⟩)
        let r := match addrs with
          | none => s
          | some t => EachBin t k.base.bits pof curPO (guarded (k.suggestConsumer draws bins)) true s
        match r with
        | some (.ok s) =>
          if s.suggestedPeer.isSome then some (pure (s.asked, s.suggestedPeer))
          else suggestLoop k draws saturation addrs sizes s.asked
        | some (.error e) => some (throw e)
        | none => none

/-- `SuggestPeer`: the state after it, the address suggested, the saturation depth when it fell
below the stored one (else 0), and whether it did; `none` when a loop of `callable` does not
end. -/
def SuggestPeer (k : Kademlia) (draws : Nat → Int × Fin 300000) :
    Option (Except String (Kademlia × Option BzzAddr × Int × Bool)) :=
  let s := k.suggestPeerPhase1
  let saturation := addNearest s.saturation s.lastPO k.nearestAddrAt
  if saturation.length = 0 then some (pure (k, none, 0, false))
  else
    (k.suggestLoop draws saturation k.defaultIndex.addrs
      (List.range s.currentMaxBinSize.toNat) 0).map (·.map fun r =>
      let k := match r.2 with
        | some e =>
          k.setAddrs (k.defaultIndex.addrs.map fun t => (Add t { e with retries := e.retries + 1 } pof).1)
        | none => k
      if toUInt8 s.saturationDepth < k.saturationDepth then
        ({ k with saturationDepth := toUInt8 s.saturationDepth }, r.2.map (·.bzzAddr),
          s.saturationDepth, true)
      else (k, r.2.map (·.bzzAddr), 0, false))

end Kademlia

/-! ## What the search finds -/

/-- `P` holds of the state reached, unless a panic or an endless loop came first. -/
def OkState {σ : Type} (P : σ → Prop) : Option (Except String σ) → Prop
  | some (.ok s) => P s
  | _ => True

/-- The entry found, if any, is one of `S` and has no connection. -/
def FoundIn (S : List Entry) (found : Option Entry) : Prop :=
  ∀ e, found = some e → e ∈ S ∧ e.conn = none

/-- An outcome whose map is a result came from a result. -/
theorem map_map_eq_ok {α β : Type} {f : α → β} {x : Option (Except String α)} {b : β}
    (h : x.map (Except.map f) = some (.ok b)) : ∃ a, x = some (.ok a) ∧ f a = b := by
  rcases x with _ | _ | a
  · cases h
  · cases h
  · exact ⟨a, rfl, by simpa [Except.map] using h⟩

/-- `guarded` keeps a property of the state that every step of the consumer keeps. -/
theorem guarded_okState {β σ : Type} {P : σ → Prop}
    {consume : β → σ → Option (Except String (σ × Bool))} {b : β}
    (hstep : ∀ s s' go, P s → consume b s = some (.ok (s', go)) → P s') :
    ∀ r, OkState P r → OkState P (guarded consume b r).1
  | some (.ok s), hs => by
    simp only [guarded]
    split
    next s' go h => exact hstep s s' go hs h
    all_goals trivial
  | some (.error _), _ => trivial
  | none, _ => trivial

/-- `callable` answers `true` only for an entry without a connection. -/
theorem callable_conn {k : Kademlia} {e : Entry} {now : Int} {rnd : Fin 300000}
    (h : k.callable e now rnd = some (.ok true)) : e.conn = none := by
  unfold Kademlia.callable at h
  split at h
  · cases h
  · rename_i hc
    simpa using (not_or.1 hc).1

/-! ## The backoff loop of `callable`

`callable` divides the time since the entry was last seen by `div` while it exceeds
`RetryInterval`. The jitter `(150000 - r) * div / 1000000` is truncated to zero for every
`RetryExponent` up to 6, so `div` is `RetryExponent` there; with `RetryExponent = 1` the loop
divides by one and never ends once the elapsed time exceeds `RetryInterval`. From 2 on the
divisor is at least 2 and the loop ends within the turns `callable` gives it. -/

/-- Truncated division by a positive divisor, in the terms of floor division. -/
theorem tdiv_eq_of_pos (x : Int) {b : Int} (hb : 0 < b) :
    x.tdiv b = if 0 ≤ x then x / b else -((-x) / b) := by
  split
  · exact Int.tdiv_eq_ediv ‹_› hb.le
  · rw [← Int.tdiv_eq_ediv (by omega) hb.le, Int.neg_tdiv, Int.neg_neg]

/-- The jitter vanishes for `RetryExponent = 1`. -/
theorem jittered_one (rnd : Fin 300000) :
    toInt64 (toInt64 1 + (toInt64 ((150000 - (rnd : Int)) * toInt64 1)).tdiv 1000000) = 1 := by
  have hr := rnd.isLt
  have h1 : toInt64 1 = 1 := toInt64_of_range (by decide) (by decide)
  have hj : toInt64 ((150000 - (rnd : Int)) * 1) = 150000 - rnd := by
    rw [Int.mul_one]
    exact toInt64_of_range (by omega) (by omega)
  have hq : (150000 - (rnd : Int)).tdiv 1000000 = 0 := by
    rw [tdiv_eq_of_pos _ (by decide)]
    split <;> omega
  rw [h1, hj, hq, Int.add_zero, h1]

/-- Dividing by one, the loop never ends once `delta`, an `int64`, exceeds `RetryInterval`: no
fuel is enough. -/
theorem retriesLoop_one {retryInterval delta : Int} (h : retryInterval < delta)
    (h₁ : -9223372036854775808 ≤ delta) (h₂ : delta < 9223372036854775808) :
    ∀ fuel retries, retriesLoop retryInterval 1 fuel delta retries = none
  | 0, _ => if_pos h
  | fuel + 1, retries => by
    rw [retriesLoop, if_pos h, if_neg one_ne_zero, Int.tdiv_one, toInt64_of_range h₁ h₂]
    exact retriesLoop_one h h₁ h₂ fuel _

/-- With `RetryExponent = 1`, `callable` does not end on an entry it does not turn down at once
(no connection, retries within `MaxRetries`) last seen longer than `RetryInterval` ago: its loop
divides by one, and runs out of every fuel. -/
theorem callable_retryExponent_one {k : Kademlia} {e : Entry} {now : Int} (rnd : Fin 300000)
    (h1 : k.params.retryExponent = 1) (hc : e.conn = none) (hr : e.retries ≤ k.params.maxRetries)
    (ht : k.params.retryInterval < timeSince now e.seenAt) :
    k.callable e now rnd = none ∧
      ∀ fuel retries,
        retriesLoop k.params.retryInterval 1 fuel (timeSince now e.seenAt) retries = none := by
  have hloop := retriesLoop_one ht (timeSince_range now e.seenAt).1 (timeSince_range now e.seenAt).2
  refine ⟨?_, hloop⟩
  unfold Kademlia.callable
  dsimp only
  rw [if_neg (by
    simp only [hc, Option.isSome_none, Bool.false_eq_true, false_or, not_lt]; exact hr),
    h1, jittered_one, hloop]
  rfl

/-- An entry seen 4.2 s and 1 ns ago, with `RetryExponent = 1` and the other parameters as
`NewKadParams` sets them. -/
theorem callable_retryExponent_one_seen_long_ago :
    4200000000 < timeSince 4200000001 0 ∧
    (NewKademlia zeroKey { NewKadParams with retryExponent := 1 } ⟨0, []⟩ ⟨1, []⟩).callable
      ⟨⟨farKey, [1], []⟩, none, 0, 0⟩ 4200000001 0 = none ∧
    ∀ fuel retries, retriesLoop 4200000000 1 fuel (timeSince 4200000001 0) retries = none :=
  ⟨by decide, callable_retryExponent_one 0 rfl rfl (by decide) (by decide)⟩

/-- The entry `suggestPeerInBin` finds is one of the bin's and has no connection. -/
theorem suggestPeerInBin_found {k : Kademlia} {draws : Nat → Int × Fin 300000} {B : Bin Entry}
    (hrun : ∀ {σ : Type} (consume : Entry → σ → σ × Bool) (s : σ),
      B.valIterator.run consume s = feed consume B.valIterator.vals s) (n : Nat) :
    OkState (fun r => FoundIn B.valIterator.vals r.2) (k.suggestPeerInBin draws B n) := by
  rw [Kademlia.suggestPeerInBin, hrun]
  refine feed_inv (fun e he r hr => guarded_okState (fun s s' go _ h => ?_) r hr)
    (fun _ h => by cases h)
  obtain ⟨c, hc, hs'⟩ := map_map_eq_ok h
  cases hs'
  cases c
  · rintro _ ⟨⟩
  · rintro e' ⟨⟩
    exact ⟨he, callable_conn hc⟩

/-- The second phase's bin consumer keeps the entry found one of `S` and without a connection,
on a bin that runs over values of `S`. -/
theorem suggestConsumer_found {k : Kademlia} {draws : Nat → Int × Fin 300000} {bins : List Nat}
    {S : List Entry} {B : Bin Entry}
    (hrun : ∀ {σ : Type} (consume : Entry → σ → σ × Bool) (s : σ),
      B.valIterator.run consume s = feed consume B.valIterator.vals s)
    (hsub : ∀ e ∈ B.valIterator.vals, e ∈ S) {s s' : Phase2} {go : Bool}
    (hs : FoundIn S s.suggestedPeer) (h : k.suggestConsumer draws bins B s = some (.ok (s', go))) :
    FoundIn S s'.suggestedPeer := by
  have hfound : ∀ cur, (k.suggestPeerInBin draws B s.asked).map (Except.map fun r =>
      ((⟨cur, B.proximityOrder, r.1, r.2⟩ : Phase2),
        decide (cur < bins.length) && r.2.isNone)) =
        some (.ok (s', go)) → FoundIn S s'.suggestedPeer := by
    intro cur h
    obtain ⟨r, hr, hrs⟩ := map_map_eq_ok h
    cases hrs
    have : OkState (fun r => FoundIn B.valIterator.vals r.2) (k.suggestPeerInBin draws B s.asked) :=
      suggestPeerInBin_found hrun s.asked
    rw [hr] at this
    exact fun e he => ⟨hsub e (this e he).1, (this e he).2⟩
  unfold Kademlia.suggestConsumer at h
  split at h
  · cases h
  · dsimp only at h
    split at h
    · exact hfound _ h
    · split at h
      · cases h
        exact hs
      · split at h
        · cases h
          exact hs
        · exact hfound _ h

/-- Every size the second phase goes through keeps the entry found one of the addrs and without
a connection. -/
theorem suggestLoop_found {k : Kademlia} {draws : Nat → Int × Fin 300000}
    {saturation : List (Int × List Nat)} {t : Pot Entry} (ht : Valid t) :
    ∀ (sizes : List Nat) (n : Nat),
      OkState (fun r => FoundIn (vals t) r.2) (k.suggestLoop draws saturation (some t) sizes n)
  | [], n => fun _ h => by cases h
  | size :: sizes, n => by
    simp only [Kademlia.suggestLoop]
    split
    · exact suggestLoop_found ht sizes n
    · split
      · trivial
      · rename_i bins _ _ curPO _
        have hr : OkState (fun st : Phase2 => FoundIn (vals t) st.suggestedPeer)
            (EachBin t k.base.bits pof curPO (guarded (k.suggestConsumer draws bins)) true
              (some (pure ⟨0, curPO, n, none⟩))) := by
          rw [EachBin, if_pos rfl, eachBin_eq]
          refine feed_inv (fun B hB r hr => guarded_okState (fun s s' go hs h => ?_) r hr)
            (fun _ h => by cases h)
          obtain ⟨hrun, hsub⟩ := binsOf_valid k.base curPO ht hB
          exact suggestConsumer_found hrun hsub hs h
        split
        · rename_i st hst
          rw [hst] at hr
          split
          · exact hr
          · exact suggestLoop_found ht sizes _
        · trivial
        · trivial

/-- A peer `SuggestPeer` suggests is the address of an entry of the default addrs that has no
connection. -/
theorem SuggestPeer_found {k : Kademlia} {draws : Nat → Int × Fin 300000} {u : Pot Entry}
    (hu : k.defaultIndex.addrs = some u) (hv : Valid u)
    {r : Kademlia × Option BzzAddr × Int × Bool} (h : k.SuggestPeer draws = some (.ok r))
    {a : BzzAddr} (ha : r.2.1 = some a) : ∃ e ∈ vals u, e.conn = none ∧ e.bzzAddr = a := by
  simp only [Kademlia.SuggestPeer] at h
  split at h
  · cases h
    cases ha
  · obtain ⟨res, hres, rfl⟩ := map_map_eq_ok h
    have hf : OkState (fun r => FoundIn (vals u) r.2) (k.suggestLoop draws
        (Kademlia.addNearest k.suggestPeerPhase1.saturation k.suggestPeerPhase1.lastPO
          k.nearestAddrAt) (some u) (List.range k.suggestPeerPhase1.currentMaxBinSize.toNat) 0) :=
      suggestLoop_found hv _ 0
    rw [← hu, hres] at hf
    have hsug : res.2.map (·.bzzAddr) = some a := by
      split at ha <;> exact ha
    obtain ⟨e, he, rfl⟩ := Option.map_eq_some'.1 hsug
    exact ⟨e, (hf e he).1, (hf e he).2, rfl⟩

/-! ## Suggestions on reachable tables -/

/-- An outcome that is a result is the result it holds. -/
theorem eq_some_ok {α : Type} {x : Option (Except String α)} (d : α)
    (h : x.map (fun y => y.toOption.isSome) = some true) :
    x = some (.ok ((x.getD (.ok d)).toOption.getD d)) := by
  rcases x with _ | _ | a <;> simp_all [Except.toOption]

/-- On every table reached from `NewKademlia` by calls that keep live addresses live, for every
outcome of the clock and random draws, a peer `SuggestPeer` suggests is the address of an entry
of the default addrs, and its overlay address is not connected. -/
theorem suggestPeer_unconnected (isSameAs : Capability → Capability → Bool) {addr : Key 256}
    {params : KadParams} {full light : Capability} {calls : List Call} {k : Kademlia}
    (h : Run isSameAs keepsLive (NewKademlia addr params full light) calls k)
    (draws : Nat → Int × Fin 300000) {r : Kademlia × Option BzzAddr × Int × Bool}
    (hr : k.SuggestPeer draws = some (.ok r)) {a : BzzAddr} (ha : r.2.1 = some a) :
    (∃ u e, k.defaultIndex.addrs = some u ∧ e ∈ vals u ∧ e.bzzAddr = a) ∧
      k.connected a.oAddr = false := by
  obtain ⟨t, u, hc, hu, hf⟩ := flags_run isSameAs h (flags_new addr params full light)
  obtain ⟨e, he, hconn, rfl⟩ := SuggestPeer_found hu hf.addrs_valid hr ha
  refine ⟨⟨u, e, hu, he, rfl⟩, ?_⟩
  have hag := hf.agree (address e)
  rw [lookup_of_mem hf.addrs_valid he, Option.some_bind, hconn] at hag
  rw [connected_of_conns hc, ← address_entry]
  cases hl : lookup t (address e) with
  | none => rfl
  | some ce =>
    rw [hl, Option.some_bind] at hag
    exact absurd (hf.live _ ce hl) (by rw [← hag]; decide)

set_option maxRecDepth 10000 in
/-- A new table on which one address is registered suggests that address, which is known and not
connected. -/
theorem suggestPeer_unconnected_registered :
    ∃ k r, Run (fun a b => a == b) keepsLive (NewKademlia zeroKey NewKadParams ⟨0, []⟩ ⟨1, []⟩)
      [.register [⟨farKey, [1], []⟩] 0] k ∧ k.SuggestPeer (fun _ => (1, 0)) = some (.ok r) ∧
      r.2.1 = some ⟨farKey, [1], []⟩ ∧
      (∃ u e, k.defaultIndex.addrs = some u ∧ e ∈ vals u ∧ e.bzzAddr = ⟨farKey, [1], []⟩) ∧
      k.connected farKey = false := by
  let same : Capability → Capability → Bool := fun a b => a == b
  let k₀ := NewKademlia zeroKey NewKadParams ⟨0, []⟩ ⟨1, []⟩
  let k₁ := (k₀.call same (.register [⟨farKey, [1], []⟩] 0)).toOption.getD k₀
  let r := ((k₁.SuggestPeer fun _ => (1, 0)).getD (.ok (k₁, none, 0, false))).toOption.getD
    (k₁, none, 0, false)
  have h₁ : k₀.call same (.register [⟨farKey, [1], []⟩] 0) = .ok k₁ := rfl
  have hguard : keepsLive k₀ (.register [⟨farKey, [1], []⟩] 0) := by
    intro q hq hc
    obtain rfl := List.mem_singleton.1 hq
    exact absurd hc (by decide)
  have hrun := Run.snoc (Run.nil k₀) hguard h₁
  have hr : k₁.SuggestPeer (fun _ => (1, 0)) = some (.ok r) := eq_some_ok _ (by decide)
  have ha : r.2.1 = some ⟨farKey, [1], []⟩ := by decide
  exact ⟨k₁, r, hrun, hr, ha, suggestPeer_unconnected same hrun _ hr ha⟩

set_option maxRecDepth 10000 in
/-- Runs that take `Off` only of a live peer do not keep the suggestions unconnected: after
`Register` of a connected peer under another underlay address, `SuggestPeer` can suggest it. -/
theorem suggestPeer_suggests_connected :
    ¬ ∀ (isSameAs : Capability → Capability → Bool) (addr : Key 256) (params : KadParams)
      (full light : Capability) (calls : List Call) (k : Kademlia),
      Run isSameAs offLive (NewKademlia addr params full light) calls k →
      ∀ (draws : Nat → Int × Fin 300000) (r : Kademlia × Option BzzAddr × Int × Bool) (a : BzzAddr),
        k.SuggestPeer draws = some (.ok r) → r.2.1 = some a →
        (∃ u e, k.defaultIndex.addrs = some u ∧ e ∈ vals u ∧ e.bzzAddr = a) ∧
          k.connected a.oAddr = false := by
  intro h
  let same : Capability → Capability → Bool := fun a b => a == b
  let k₀ := NewKademlia zeroKey NewKadParams ⟨0, []⟩ ⟨1, []⟩
  let k₁ := (k₀.call same (.on ⟨0, ⟨farKey, [1], []⟩⟩ 0)).toOption.getD k₀
  let k₂ := (k₁.call same (.register [⟨farKey, [2], []⟩] 1)).toOption.getD k₀
  let r := ((k₂.SuggestPeer fun _ => (1, 0)).getD (.ok (k₂, none, 0, false))).toOption.getD
    (k₂, none, 0, false)
  have h₁ : k₀.call same (.on ⟨0, ⟨farKey, [1], []⟩⟩ 0) = .ok k₁ := rfl
  have h₂ : k₁.call same (.register [⟨farKey, [2], []⟩] 1) = .ok k₂ := rfl
  have hr : k₂.SuggestPeer (fun _ => (1, 0)) = some (.ok r) := eq_some_ok _ (by decide)
  have ha : r.2.1 = some ⟨farKey, [2], []⟩ := by decide
  have hlive : k₂.connected farKey = true := by decide
  have := (h same _ _ _ _ _ _
    (.snoc (.snoc (.nil k₀) (by trivial) h₁) (by trivial) h₂) _ r _ hr
    ha).2
  rw [hlive] at this
  cases this

end Swarm.Network
