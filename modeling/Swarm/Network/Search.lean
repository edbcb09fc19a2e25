import Swarm.Network.Suggest
import Swarm.Pot.Coverage

/-!
# The second phase of `SuggestPeer` is a plain search

For each size, the second phase of `SuggestPeer` drives one ascending `EachBin` over the default
addrs with a cursor `cur` into the orders `saturation[size]`: it advances the cursor over the
orders below the bin's, steps it back with `cur--` when it overshoots, and stops when the orders
run out. Over orders in strictly ascending order, which the first phase builds
(`phase1_sorted`), this visits exactly the addrs bins at those orders, in turn, never reading
past the end of the orders (`suggestRun_eq`). So `SuggestPeer` suggests what the plain nested
search `plainSearch` finds (`SuggestPeer_plain`).
-/

namespace Swarm.Network

open Pot

/-! ## The plain search -/

section Plain

variable (k : Kademlia) (draws : Nat → Int × Fin 300000)

/-- The first callable entry of `es`, the `i`-th entry asked with the draws of `n + i`: the
number of entries asked, and the entry. A panic or an endless loop of `callable` ends the
search. -/
def firstCallable : List Entry → Nat → Option (Except String (Nat × Option Entry))
  | [], n => some (pure (n, none))
  | e :: es, n =>
    match k.callable e (draws n).1 (draws n).2 with
    | some (.ok true) => some (pure (n + 1, some e))
    | some (.ok false) => firstCallable es (n + 1)
    | some (.error err) => some (throw err)
    | none => none

/-- The entries of the addrs bins at the orders `bins` from the base, an order at a time, each
bin's in the order of its iterator. -/
def orderEntries (t : Pot Entry) (bins : List Nat) : List Entry :=
  bins.flatMap fun po =>
    (((binsOf k.base.bits pof 0 t).find? (·.proximityOrder = po)).map (·.valIterator.vals)).getD []

/-- The nested search: for each size in turn, the first callable entry of the addrs bins at the
orders `saturation[size]`. -/
def plainSearch (saturation : List (Int × List Nat)) (t : Pot Entry) :
    List Nat → Nat → Option (Except String (Nat × Option Entry))
  | [], n => some (pure (n, none))
  | size :: sizes, n =>
    match firstCallable k draws (orderEntries k t ((saturation.lookup (size : Int)).getD [])) n with
    | some (.ok (n', none)) => plainSearch saturation t sizes n'
    | r => r

end Plain

variable {k : Kademlia} {draws : Nat → Int × Fin 300000}

/-- Searching two lists is searching the first, then the second when nothing was found. -/
theorem firstCallable_append (l₂ : List Entry) :
    ∀ (l₁ : List Entry) (n : Nat), firstCallable k draws (l₁ ++ l₂) n =
      match firstCallable k draws l₁ n with
      | some (.ok (n', none)) => firstCallable k draws l₂ n'
      | r => r
  | [], n => rfl
  | e :: l₁, n => by
    simp only [List.cons_append, firstCallable]
    split
    · rfl
    · exact firstCallable_append l₂ l₁ (n + 1)
    · rfl
    · rfl

/-- `callableConsumer` fed a list of entries is `firstCallable`. -/
theorem feed_callableConsumer :
    ∀ (es : List Entry) (n : Nat),
      (feed (guarded (k.callableConsumer draws)) es (some (.ok (n, none)))).1 =
        firstCallable k draws es n
  | [], n => rfl
  | e :: es, n => by
    rw [feed_cons]
    simp only [guarded, Kademlia.callableConsumer, firstCallable]
    rcases k.callable e (draws n).1 (draws n).2 with _ | _ | _ | _
    · rfl
    · rfl
    · exact feed_callableConsumer es (n + 1)
    · rfl

/-- `suggestPeerInBin` is `firstCallable` over the bin's entries. -/
theorem suggestPeerInBin_eq {B : Bin Entry}
    (hrun : ∀ {σ : Type} (consume : Entry → σ → σ × Bool) (s : σ),
      B.valIterator.run consume s = feed consume B.valIterator.vals s) (n : Nat) :
    k.suggestPeerInBin draws B n = firstCallable k draws B.valIterator.vals n := by
  rw [Kademlia.suggestPeerInBin, hrun, feed_callableConsumer]

/-! ## The cursor -/

/-- `skipLoop` from an order `c` below the bin's order `po`, over orders `pre` below `po` and
then `post`: it stops past the first order of `post`, which is not below `po`, or at the end, on
an order below `po`. -/
theorem skipLoop_split (po : Nat) (post : List Nat) (hpost : ∀ h ∈ post.head?, po ≤ h) :
    ∀ (pre : List Nat) (cur : Int) (c : Nat), c < po → (∀ q ∈ pre, q < po) →
      (post = [] → (skipLoop po (pre ++ post) cur c).1 = cur + pre.length ∧
        (skipLoop po (pre ++ post) cur c).2 < po) ∧
      ∀ h rest, post = h :: rest → skipLoop po (pre ++ post) cur c = (cur + pre.length + 1, h)
  | [], cur, c, hc, _ => by
    refine ⟨fun h => by simp [h, skipLoop, hc], fun h rest hp => ?_⟩
    subst hp
    have hh := hpost h rfl
    cases rest <;> simp [skipLoop, hc, Nat.not_lt.2 hh]
  | q :: pre, cur, c, hc, hpre => by
    have ih := skipLoop_split po post hpost pre (cur + 1) q (hpre q (.head _))
      fun x hx => hpre x (.tail _ hx)
    rw [List.cons_append, skipLoop, if_pos hc, List.length_cons, Nat.cast_succ]
    refine ⟨fun h => ?_, fun h rest hp => ?_⟩
    · obtain ⟨h₁, h₂⟩ := ih.1 h
      exact ⟨by rw [h₁]; omega, h₂⟩
    · rw [ih.2 h rest hp]
      congr 1
      omega

/-- The cursor of the second phase before a bin at order `lo` or above: it points into `bins`,
the orders before it are below `lo`, those after it at least `lo`; the first order is at most
`lo`; and no entry was found yet. -/
structure CursorInv (bins : List Nat) (lo : Nat) (s : Phase2) : Prop where
  split : ∃ pre c post, bins = pre ++ c :: post ∧ s.cur = pre.length ∧ (∀ q ∈ pre, q < lo) ∧
    ∀ q ∈ post, lo ≤ q
  head_le : ∀ b ∈ bins.head?, b ≤ lo
  none : s.suggestedPeer = none

/-- `index` at the length of a prefix reads the element after it. -/
theorem index_split (pre post : List Nat) (c : Nat) :
    index (pre ++ c :: post) pre.length = .ok c := by
  simp [index, List.getElem_append_right]
  rfl

/-- One turn of the second phase's bin consumer, at a bin of order `lo` or above. When the bin's
order is one of `bins`, it searches the bin with the cursor past that order, and goes on while
orders remain and nothing is found. Otherwise it leaves the search as it is, and goes on with the
cursor in place for the next order, or stops when every order is below the bin's. -/
theorem suggestConsumer_step (k : Kademlia) (draws : Nat → Int × Fin 300000) {bins : List Nat} (hbins : bins.Pairwise (· < ·)) {lo : Nat}
    {s : Phase2} (hs : CursorInv bins lo s) (B : Bin Entry) (hlo : lo ≤ B.proximityOrder) :
    (∃ pre post, bins = pre ++ B.proximityOrder :: post ∧
      k.suggestConsumer draws bins B s = (k.suggestPeerInBin draws B s.asked).map (·.map fun r =>
        (⟨(pre.length : Int) + 1, B.proximityOrder, r.1, r.2⟩,
          decide ((pre.length : Int) + 1 < bins.length) && r.2.isNone))) ∨
    (B.proximityOrder ∉ bins ∧ ∃ s' go, k.suggestConsumer draws bins B s = some (.ok (s', go)) ∧
      s'.asked = s.asked ∧ s'.suggestedPeer = none ∧
      (go = true → CursorInv bins (B.proximityOrder + 1) s') ∧
      (go = false → ∀ q ∈ bins, q < B.proximityOrder)) := by
  obtain ⟨pre, c, post, rfl, hcur, hpre, hpost⟩ := hs.split
  have hsorted := hbins
  rw [List.pairwise_append, List.pairwise_cons] at hsorted
  obtain ⟨-, ⟨hcpost, -⟩, hprec⟩ := hsorted
  unfold Kademlia.suggestConsumer
  rw [hcur, index_split]
  dsimp only
  by_cases hc : c = B.proximityOrder
  · exact .inl ⟨pre, post, by rw [hc], by rw [if_pos hc]⟩
  rw [if_neg hc, Int.toNat_ofNat, List.drop_left]
  by_cases hgt : B.proximityOrder < c
  · -- The cursor overshoots the bin: it steps back, before an order above the bin's.
    have hskip : skipLoop B.proximityOrder (c :: post) pre.length c = ((pre.length : Int), c) := by
      cases post <;> simp [skipLoop, Nat.not_lt.2 hgt.le]
    rw [hskip]
    dsimp only
    rw [if_pos hgt]
    obtain ⟨pre₀, p, rfl⟩ : ∃ pre₀ p, pre = pre₀ ++ [p] := by
      rcases List.eq_nil_or_concat pre with rfl | ⟨pre₀, p, rfl⟩
      · have := hs.head_le c rfl
        omega
      · exact ⟨pre₀, p, List.concat_eq_append pre₀ p⟩
    refine .inr ⟨fun hmem => ?_, _, true, rfl, rfl, hs.none, fun _ => ⟨⟨pre₀, p, c :: post, by simp,
      by simp, fun q hq => ?_, fun q hq => ?_⟩, fun b hb => ?_, hs.none⟩, nofun⟩
    · simp only [List.mem_append, List.mem_cons, List.not_mem_nil, or_false] at hmem
      rcases hmem with (hq | rfl) | hq | hq
      · have := hpre _ (List.mem_append_left _ hq)
        omega
      · have := hpre _ (List.mem_append_right _ (List.mem_singleton_self _))
        omega
      · exact hc hq.symm
      · have := hcpost _ hq
        omega
    · have := hpre q (List.mem_append_left _ hq)
      omega
    · rcases List.mem_cons.1 hq with rfl | hq
      · omega
      · have := hcpost q hq
        omega
    · have := hs.head_le b hb
      omega
  · -- The cursor moves over the orders below the bin's.
    have hlt : c < B.proximityOrder := by omega
    obtain ⟨L₁, L₂, hsplit, hL₁, hL₂⟩ : ∃ L₁ L₂, c :: post = L₁ ++ L₂ ∧
        (∀ q ∈ L₁, q < B.proximityOrder) ∧ ∀ h ∈ L₂.head?, B.proximityOrder ≤ h := by
      refine ⟨_, _, (List.takeWhile_append_dropWhile (fun q => decide (q < B.proximityOrder))
        _).symm, fun q hq => by simpa using List.mem_takeWhile_imp hq, fun h hh => ?_⟩
      have := List.head?_dropWhile_not (fun q => decide (q < B.proximityOrder)) (c :: post)
      rw [hh] at this
      simpa using this
    have hskip := skipLoop_split B.proximityOrder L₂ hL₂ L₁ pre.length c hlt hL₁
    have hbins' : pre ++ c :: post = (pre ++ L₁) ++ L₂ := by rw [hsplit, List.append_assoc]
    rw [← hsplit] at hskip
    rcases L₂ with _ | ⟨h, rest⟩
    · -- Every order is below the bin's: the phase stops.
      obtain ⟨h₁, h₂⟩ := hskip.1 rfl
      rw [List.append_nil] at hbins'
      have hall : ∀ q ∈ pre ++ c :: post, q < B.proximityOrder := by
        rw [hbins']
        intro q hq
        rcases List.mem_append.1 hq with hq | hq
        · have := hpre q hq
          omega
        · exact hL₁ q hq
      rw [if_neg (by omega), if_pos h₂]
      exact .inr ⟨fun hmem => lt_irrefl _ (hall _ hmem), _, false, rfl, rfl, hs.none, nofun,
        fun _ => hall⟩
    · rw [hskip.2 h rest rfl]
      dsimp only
      have hh : B.proximityOrder ≤ h := hL₂ h rfl
      have hrest : ∀ q ∈ rest, h < q := by
        have := hbins
        rw [hbins', List.pairwise_append, List.pairwise_cons] at this
        exact this.2.1.1
      by_cases hpo : B.proximityOrder < h
      · -- The cursor stops before the first order above the bin's.
        rw [if_pos hpo]
        refine .inr ⟨fun hmem => ?_, _, true, rfl, rfl, hs.none, fun _ => ⟨⟨pre ++ L₁, h, rest,
          hbins', by simp, fun q hq => ?_, fun q hq => ?_⟩,
          fun b hb => ?_, hs.none⟩, nofun⟩
        · rw [hbins'] at hmem
          simp only [List.mem_append, List.mem_cons] at hmem
          rcases hmem with (hq | hq) | rfl | hq
          · have := hpre _ hq
            omega
          · have := hL₁ _ hq
            omega
          · omega
          · have := hrest _ hq
            omega
        · rcases List.mem_append.1 hq with hq | hq
          · have := hpre q hq
            omega
          · have := hL₁ q hq
            omega
        · have := hrest q hq
          omega
        · have := hs.head_le b hb
          omega
      · -- The cursor lands on the bin's order: the bin is searched.
        have heq : h = B.proximityOrder := by omega
        rw [if_neg hpo, if_neg (by omega)]
        refine .inl ⟨pre ++ L₁, rest, by rw [hbins', heq], ?_⟩
        simp only [List.length_append, Nat.cast_add]

/-- No bin above every order of `bins` is at one of them. -/
theorem filter_orders_eq_nil {bins : List Nat} {b : Nat} (hbins : ∀ q ∈ bins, q ≤ b)
    {L : List (Bin Entry)} (hL : ∀ B ∈ L, b < B.proximityOrder) :
    (L.filter fun B => B.proximityOrder ∈ bins) = [] :=
  List.filter_eq_nil_iff.2 fun B hB hmem => by
    have := hbins _ (of_decide_eq_true hmem)
    have := hL B hB
    omega

/-- Over bins presented in ascending order, from order `lo` on, the second phase searches the
bins at the orders of `bins` in turn, and stops at the first callable entry: never reading past
the end of `bins`, nor passing over such a bin. -/
theorem suggestRun_eq {bins : List Nat} (hbins : bins.Pairwise (· < ·)) :
    ∀ (L : List (Bin Entry)) (lo : Nat) (s : Phase2), (L.map Bin.proximityOrder).Pairwise (· < ·) →
      (∀ B ∈ L, (∀ {σ : Type} (consume : Entry → σ → σ × Bool) (s : σ),
        B.valIterator.run consume s = feed consume B.valIterator.vals s) ∧
        lo ≤ B.proximityOrder) →
      CursorInv bins lo s →
      (feed (guarded (k.suggestConsumer draws bins)) L (some (.ok s))).1.map
          (·.map fun st => (st.asked, st.suggestedPeer)) =
        firstCallable k draws ((L.filter fun B => B.proximityOrder ∈ bins).flatMap
          (·.valIterator.vals)) s.asked
  | [], _, s, _, _, hs => by simp [firstCallable, hs.none, Except.map]; rfl
  | B :: L, lo, s, hL, hB, hs => by
    rw [List.map_cons, List.pairwise_cons, List.forall_mem_map] at hL
    obtain ⟨hrun, hlo⟩ := hB B (.head _)
    have hLB : ∀ B' ∈ L, B.proximityOrder + 1 ≤ B'.proximityOrder := fun B' hB' => hL.1 B' hB'
    have hnext (s' : Phase2) (hs' : CursorInv bins (B.proximityOrder + 1) s') :=
      suggestRun_eq hbins L (B.proximityOrder + 1) s' hL.2 (fun B' hB' => ⟨(hB B' (.tail _ hB')).1,
        hLB B' hB'⟩) hs'
    rw [feed_cons]
    rcases suggestConsumer_step k draws hbins hs B hlo with
      ⟨pre, post, rfl, hstep⟩ | ⟨hnot, s', go, hstep, hasked, hnone, hgo, hstop⟩
    · -- The bin is at one of the orders: it is searched.
      rw [List.filter_cons_of_pos (by simp), List.flatMap_cons, firstCallable_append,
        ← suggestPeerInBin_eq hrun]
      simp only [guarded, hstep]
      rcases k.suggestPeerInBin draws B s.asked with _ | _ | ⟨n', _ | e⟩
      · rfl
      · rfl
      · -- Nothing callable in the bin: on to the next order, if there is one.
        have hsorted := hbins
        rw [List.pairwise_append, List.pairwise_cons] at hsorted
        obtain ⟨-, ⟨hpost, -⟩, hpre⟩ := hsorted
        rcases post with _ | ⟨c, post⟩
        · simp only [Except.map, List.length_append, List.length_singleton, Nat.cast_add,
            Nat.cast_one, lt_self_iff_false, decide_False, Bool.false_and, Bool.false_eq_true,
            ↓reduceIte, Option.map_some']
          rw [filter_orders_eq_nil (b := B.proximityOrder) (fun q hq => ?_) hLB]
          · rfl
          · rcases List.mem_append.1 hq with hq | hq
            · exact (hpre q hq _ (.head _)).le
            · exact (List.mem_singleton.1 hq).le
        · have hs' : CursorInv (pre ++ B.proximityOrder :: c :: post) (B.proximityOrder + 1)
              ⟨(pre.length : Int) + 1, B.proximityOrder, n', none⟩ :=
            ⟨⟨pre ++ [B.proximityOrder], c, post, by simp, by simp, fun q hq => ?_, fun q hq => ?_⟩,
              fun b hb => ?_, rfl⟩
          · simp only [Except.map, List.length_append, List.length_cons, Nat.cast_add,
              Nat.cast_succ, Option.isNone_none, Bool.and_true]
            rw [if_pos (by simp)]
            exact hnext _ hs'
          · rcases List.mem_append.1 hq with hq | hq
            · have := hpre q hq _ (.head _)
              omega
            · rw [List.mem_singleton.1 hq]
              omega
          · have := hpost q (.tail _ hq)
            omega
          · have := hs.head_le b (by cases pre <;> simpa using hb)
            omega
      · simp [Except.map]
    · -- The bin is at none of the orders: it is passed over.
      rw [List.filter_cons_of_neg (by simpa using hnot), ← hasked]
      simp only [guarded, hstep]
      cases go
      · simp only [Bool.false_eq_true, ↓reduceIte, Option.map_some', Except.map, hnone]
        rw [filter_orders_eq_nil (b := B.proximityOrder) (fun q hq => (hstop rfl q hq).le) hLB]
        rfl
      · exact hnext s' (hgo rfl)

/-! ## The orders the first phase collects -/

/-- The orders of a saturation map: each list of orders is not empty, strictly ascending, and
below `bound`. -/
def SatSorted (m : List (Int × List Nat)) (bound : Nat) : Prop :=
  ∀ e ∈ m, e.2 ≠ [] ∧ e.2.Pairwise (· < ·) ∧ ∀ q ∈ e.2, q < bound

/-- Orders below a bound are below every greater bound. -/
theorem SatSorted.mono {m : List (Int × List Nat)} {b b' : Nat} (h : SatSorted m b)
    (hb : b ≤ b') : SatSorted m b' := fun e he =>
  ⟨(h e he).1, (h e he).2.1, fun q hq => Nat.lt_of_lt_of_le ((h e he).2.2 q hq) hb⟩

/-- Appending an order not below the bound keeps the orders ascending. -/
theorem SatSorted.appendSat_of_le {b po : Nat} (hpo : b ≤ po) (size : Int) :
    ∀ {m : List (Int × List Nat)}, SatSorted m b → SatSorted (appendSat m size po) (po + 1)
  | [], _ => by simp [SatSorted, appendSat]
  | (s, l) :: m, h => by
    have hm : SatSorted m b := fun e he => h e (.tail _ he)
    obtain ⟨-, hl, hlb⟩ := h (s, l) (.head _)
    rw [appendSat]
    split
    · refine List.forall_mem_cons.2 ⟨⟨by simp, ?_, fun q hq => ?_⟩, (hm.mono (by omega))⟩
      · exact List.pairwise_append.2 ⟨hl, List.pairwise_singleton _ _, fun q hq p hp => by
          rw [List.mem_singleton.1 hp]
          exact Nat.lt_of_lt_of_le (hlb q hq) hpo⟩
      · rcases List.mem_append.1 hq with hq | hq
        · have := hlb q hq
          omega
        · rw [List.mem_singleton.1 hq]
          omega
    · exact List.forall_mem_cons.2 ⟨⟨(h (s, l) (.head _)).1, hl, fun q hq => by
        have := hlb q hq
        omega⟩, SatSorted.appendSat_of_le hpo size hm⟩

/-- A loop that appends the orders from `a` on, one per turn, to `saturation[0]`. -/
theorem satSorted_foldl_range' {σ : Type} (sat : σ → List (Int × List Nat)) (f : σ → Nat → σ)
    (hf : ∀ s q, sat (f s q) = appendSat (sat s) 0 q) :
    ∀ (n a : Nat) (s : σ), SatSorted (sat s) a →
      SatSorted (sat ((List.range' a n).foldl f s)) (a + n)
  | 0, _, _, h => h
  | n + 1, a, s, h => by
    rw [List.range'_succ, List.foldl_cons, show a + (n + 1) = a + 1 + n by omega]
    exact satSorted_foldl_range' sat f hf n (a + 1) (f s a) (hf s a ▸ h.appendSat_of_le le_rfl 0)

/-- One turn of the first phase, at a bin not below `lastPO`, keeps the orders collected below
`lastPO`, which it sets past the bin's order. -/
theorem binConsumer_satSorted (k : Kademlia) (radius : Int) (B : Bin Entry) {s : Phase1}
    (h : SatSorted s.saturation s.lastPO) (hpo : s.lastPO ≤ B.proximityOrder) :
    SatSorted (k.binConsumer radius B s).1.saturation (B.proximityOrder + 1) ∧
      (k.binConsumer radius B s).1.lastPO = B.proximityOrder + 1 ∧
      (k.binConsumer radius B s).2 = true := by
  have hskip : ∀ {s₁ : Phase1}, s₁.saturation = s.saturation → s₁.lastPO = s.lastPO →
      SatSorted ((List.range' s₁.lastPO (B.proximityOrder - s₁.lastPO)).foldl skipEmptyBin
        s₁).saturation B.proximityOrder := fun {s₁} h₁ h₂ => by
    have := satSorted_foldl_range' Phase1.saturation skipEmptyBin (fun _ _ => rfl)
      (B.proximityOrder - s₁.lastPO) s₁.lastPO s₁ (h₁ ▸ h₂ ▸ h)
    rwa [Nat.add_sub_cancel' (h₂ ▸ hpo)] at this
  unfold Kademlia.binConsumer
  dsimp only
  -- In every branch the bin's order is appended to the orders of the skipped bins, or not.
  split_ifs <;> first
    | exact ⟨SatSorted.appendSat_of_le le_rfl _ (hskip rfl rfl), rfl, rfl⟩
    | exact ⟨SatSorted.mono (hskip rfl rfl) (Nat.le_succ _), rfl, rfl⟩

/-- The first phase over ascending bins from `lastPO` on keeps the orders of the saturation map
ascending and below `lastPO`. -/
theorem feed_binConsumer_satSorted (k : Kademlia) (radius : Int) :
    ∀ (L : List (Bin Entry)) (s : Phase1), (L.map Bin.proximityOrder).Pairwise (· < ·) →
      (∀ B ∈ L, s.lastPO ≤ B.proximityOrder) → SatSorted s.saturation s.lastPO →
      SatSorted (feed (k.binConsumer radius) L s).1.saturation
        (feed (k.binConsumer radius) L s).1.lastPO
  | [], _, _, _, h => h
  | B :: L, s, hL, hlo, h => by
    rw [List.map_cons, List.pairwise_cons, List.forall_mem_map] at hL
    obtain ⟨h₁, h₂, h₃⟩ := binConsumer_satSorted k radius B h (hlo B (.head _))
    rw [feed_cons]
    dsimp only
    rw [if_pos h₃]
    exact feed_binConsumer_satSorted k radius L _ hL.2 (fun B' hB' => h₂ ▸ hL.1 B' hB') (h₂ ▸ h₁)

/-- Over a valid conns pot, every size's orders that the first phase collects, with those
`addNearest` adds, are a list that is not empty and strictly ascends. -/
theorem phase1_sorted {k : Kademlia}
    (hconns : ∀ tc, k.defaultIndex.conns = some tc → Valid tc) :
    ∀ e ∈ Kademlia.addNearest k.suggestPeerPhase1.saturation k.suggestPeerPhase1.lastPO k.nearestAddrAt,
      e.2 ≠ [] ∧ e.2.Pairwise (· < ·) := by
  have h₁ : SatSorted k.suggestPeerPhase1.saturation k.suggestPeerPhase1.lastPO := by
    unfold Kademlia.suggestPeerPhase1
    split
    · exact fun _ => nofun
    · rename_i tc htc
      rw [EachBin, if_pos rfl, eachBin_eq]
      exact feed_binConsumer_satSorted k _ _ _ (groups_of_valid k.base 0 (hconns tc htc)).sorted
        (fun _ _ => Nat.zero_le _) fun _ => nofun
  intro e he
  have := satSorted_foldl_range' id (fun m q => appendSat m 0 q) (fun _ _ => rfl) _ _ _ h₁ e he
  exact ⟨this.1, this.2.1⟩

/-! ## The bins at the orders -/

/-- Flattening the optional lists of a list is flattening those that are present. -/
theorem flatMap_getD_eq {β γ : Type} (f : Nat → Option β) (g : β → List γ) :
    ∀ l : List Nat, l.flatMap (fun x => ((f x).map g).getD []) = (l.filterMap f).flatMap g
  | [] => rfl
  | x :: l => by
    rw [List.flatMap_cons, List.filterMap_cons, flatMap_getD_eq f g l]
    cases f x <;> rfl

/-- Looking the orders of `bins` up, in turn, among bins in ascending order of order is keeping
the bins at those orders, when `bins` ascends too. -/
theorem filterMap_find_orders {bins : List Nat} (hbins : bins.Pairwise (· < ·)) :
    ∀ {L : List (Bin Entry)}, (L.map Bin.proximityOrder).Pairwise (· < ·) →
      bins.filterMap (fun po => L.find? (·.proximityOrder = po)) =
        L.filter fun B => B.proximityOrder ∈ bins
  | [], _ => by simp
  | B :: L, hL => by
    rw [List.map_cons, List.pairwise_cons, List.forall_mem_map] at hL
    have ih := filterMap_find_orders hbins hL.2
    have hnone : ∀ q ≤ B.proximityOrder, L.find? (·.proximityOrder = q) = none := fun q hq =>
      List.find?_eq_none.2 fun B' hB' => by
        have := hL.1 B' hB'
        simp only [decide_eq_true_eq]
        omega
    have hcons : ∀ q ∈ bins, q ≠ B.proximityOrder →
        (B :: L).find? (·.proximityOrder = q) = L.find? (·.proximityOrder = q) := fun q _ hq =>
      List.find?_cons_of_neg _ (by simpa using Ne.symm hq)
    by_cases hmem : B.proximityOrder ∈ bins
    · obtain ⟨pre, post, rfl⟩ := List.append_of_mem hmem
      have hsorted := hbins
      rw [List.pairwise_append, List.pairwise_cons] at hsorted
      obtain ⟨-, ⟨hpost, -⟩, hpre⟩ := hsorted
      have hpre_none : ∀ L' : List (Bin Entry), (∀ q ∈ pre, L'.find? (·.proximityOrder = q) =
          L.find? (·.proximityOrder = q)) → pre.filterMap (fun po => L'.find? (·.proximityOrder = po)) = [] :=
        fun L' hL' => List.filterMap_eq_nil_iff.2 fun q hq => by
          rw [hL' q hq]
          exact hnone q (hpre q hq _ (.head _)).le
      rw [List.filter_cons_of_pos (by simp), ← ih, List.filterMap_append, List.filterMap_append,
        hpre_none L fun _ _ => rfl, hpre_none (B :: L) fun q hq =>
          hcons q (List.mem_append_left _ hq) (hpre q hq _ (.head _)).ne,
        List.filterMap_cons, List.filterMap_cons, List.find?_cons_of_pos _ (by simp),
        hnone _ le_rfl, List.filterMap_congr fun q hq => hcons q (by simp [hq])
          (hpost q hq).ne']
      rfl
    · rw [List.filter_cons_of_neg (by simpa using hmem), ← ih]
      exact List.filterMap_congr fun q hq => hcons q hq fun h => hmem (h ▸ hq)

/-! ## The second phase is the plain search -/

/-- For one size, at ascending orders `c :: rest`, the second phase's ascending `EachBin` over a
valid addrs pot, from the first order on, searches the addrs bins at those orders in turn. -/
theorem eachBin_suggest_eq (k : Kademlia) (draws : Nat → Int × Fin 300000) {t : Pot Entry}
    (ht : Valid t) {c : Nat} {rest : List Nat} (hbins : (c :: rest).Pairwise (· < ·)) (n : Nat) :
    (EachBin t k.base.bits pof c (guarded (k.suggestConsumer draws (c :: rest))) true
        (some (pure ⟨0, c, n, none⟩))).map (·.map fun st => (st.asked, st.suggestedPeer)) =
      firstCallable k draws (orderEntries k t (c :: rest)) n := by
  have hg := groups_of_valid k.base 0 ht
  have hinv : CursorInv (c :: rest) c ⟨0, c, n, none⟩ :=
    ⟨⟨[], c, rest, rfl, rfl, nofun, fun q hq => (List.rel_of_pairwise_cons hbins hq).le⟩,
      fun b hb => (Option.some.inj hb).ge, rfl⟩
  rw [EachBin, if_pos rfl, eachBin_eq, binsOf_filter]
  refine (suggestRun_eq hbins _ c _ (hg.sorted.sublist ((List.filter_sublist _).map _))
      (fun B hB => ⟨hg.run_eq B (List.mem_of_mem_filter hB),
        of_decide_eq_true (List.mem_filter.1 hB).2⟩) hinv).trans ?_
  rw [orderEntries, flatMap_getD_eq,
    filterMap_find_orders hbins (L := binsOf k.base.bits pof 0 t) hg.sorted, List.filter_filter]
  congr 2
  refine List.filter_congr fun B _ => ?_
  by_cases hB : B.proximityOrder ∈ c :: rest
  · have : c ≤ B.proximityOrder := by
      rcases List.mem_cons.1 hB with h | h
      · exact h.ge
      · exact (List.rel_of_pairwise_cons hbins h).le
    simp [hB, this]
  · simp [hB]

/-- With no orders collected, the plain search finds nothing. -/
theorem plainSearch_nil (t : Pot Entry) :
    ∀ (sizes : List Nat) (n : Nat), plainSearch k draws [] t sizes n = some (pure (n, none))
  | [], _ => rfl
  | _ :: sizes, n => plainSearch_nil t sizes n

/-- Over a valid addrs pot, when every size's orders are not empty and ascend, the second
phase's loop over the sizes is the plain search. -/
theorem suggestLoop_eq (k : Kademlia) (draws : Nat → Int × Fin 300000) {t : Pot Entry}
    (ht : Valid t) {saturation : List (Int × List Nat)}
    (hsat : ∀ e ∈ saturation, e.2 ≠ [] ∧ e.2.Pairwise (· < ·)) :
    ∀ (sizes : List Nat) (n : Nat),
      k.suggestLoop draws saturation (some t) sizes n = plainSearch k draws saturation t sizes n
  | [], _ => rfl
  | size :: sizes, n => by
    have ih := suggestLoop_eq k draws ht hsat sizes
    rw [Kademlia.suggestLoop, plainSearch]
    rcases hl : saturation.lookup (size : Int) with _ | bins
    · exact ih n
    · obtain ⟨l₁, l₂, hsplit, -⟩ := List.lookup_eq_some_iff.1 hl
      obtain ⟨hne, hsorted⟩ := hsat _ (hsplit ▸ List.mem_append_right _ (.head _))
      obtain ⟨c, rest, rfl⟩ := List.exists_cons_of_ne_nil hne
      have hr := eachBin_suggest_eq k draws ht hsorted n
      have hidx : index (c :: rest) 0 = .ok c := index_split [] rest c
      simp only [hidx, Option.getD_some]
      rcases hE : EachBin t k.base.bits pof c (guarded (k.suggestConsumer draws (c :: rest))) true
        (some (pure ⟨0, c, n, none⟩)) with _ | _ | st
      all_goals rw [hE] at hr; rw [← hr]
      · rfl
      · rfl
      · rcases hp : st.suggestedPeer with _ | e
        · simp [Except.map, hp, ih]
        · simp [Except.map, hp]
          rfl

/-- Over valid conns and addrs pots, the address `SuggestPeer` suggests is the one the plain
search finds: over the sizes from 0 up to the bound the first phase computes, over the orders
the first phase collects for each size, in turn, the first callable entry of the addrs bin at that
order, in the order of its iterator. -/
theorem SuggestPeer_plain {k : Kademlia} (draws : Nat → Int × Fin 300000) {tc ta : Pot Entry}
    (hc : k.defaultIndex.conns = some tc) (hvc : Valid tc)
    (ha : k.defaultIndex.addrs = some ta) (hva : Valid ta) :
    (k.SuggestPeer draws).map (·.map (·.2.1)) =
      (plainSearch k draws (Kademlia.addNearest k.suggestPeerPhase1.saturation
          k.suggestPeerPhase1.lastPO k.nearestAddrAt) ta
        (List.range k.suggestPeerPhase1.currentMaxBinSize.toNat) 0).map
        (·.map fun r => r.2.map (·.bzzAddr)) := by
  have hsat := phase1_sorted fun tc' h => (Option.some.inj (hc.symm.trans h)) ▸ hvc
  unfold Kademlia.SuggestPeer
  dsimp only
  split
  · rename_i hlen
    rw [List.length_eq_zero.1 hlen, plainSearch_nil]
    rfl
  · rw [ha, suggestLoop_eq k draws hva hsat, Option.map_map]
    rcases plainSearch k draws _ ta _ 0 with _ | _ | r
    · rfl
    · rfl
    · simp only [Function.comp, Option.map_some', Except.map]
      split <;> rfl

set_option maxRecDepth 10000 in
/-- A new table on which one address is registered: `SuggestPeer` suggests it, as the plain search
does. -/
theorem SuggestPeer_plain_registered :
    ∃ (k : Kademlia) (tc ta : Pot Entry), k.defaultIndex.conns = some tc ∧ Valid tc ∧
      k.defaultIndex.addrs = some ta ∧ Valid ta ∧
      (k.SuggestPeer fun _ => (1, 0)).map (·.map (·.2.1)) = some (.ok (some ⟨farKey, [1], []⟩)) ∧
      (plainSearch k (fun _ => (1, 0)) (Kademlia.addNearest k.suggestPeerPhase1.saturation
          k.suggestPeerPhase1.lastPO k.nearestAddrAt) ta
        (List.range k.suggestPeerPhase1.currentMaxBinSize.toNat) 0).map
        (·.map fun r => r.2.map (·.bzzAddr)) = some (.ok (some ⟨farKey, [1], []⟩)) := by
  let k₀ := NewKademlia zeroKey NewKadParams ⟨0, []⟩ ⟨1, []⟩
  let k₁ := (k₀.call (fun a b => a == b) (.register [⟨farKey, [1], []⟩] 0)).toOption.getD k₀
  have h₁ : k₀.call (fun a b => a == b) (.register [⟨farKey, [1], []⟩] 0) = .ok k₁ := rfl
  have hguard : keepsLive k₀ (.register [⟨farKey, [1], []⟩] 0) := by
    intro q hq hc
    obtain rfl := List.mem_singleton.1 hq
    exact absurd hc (by decide)
  obtain ⟨tc, ta, hc, ha, hf⟩ := flags_run _ (Run.snoc (Run.nil k₀) hguard h₁) (flags_new _ _ _ _)
  let r := ((k₁.SuggestPeer fun _ => (1, 0)).getD (.ok (k₁, none, 0, false))).toOption.getD
    (k₁, none, 0, false)
  have hr : k₁.SuggestPeer (fun _ => (1, 0)) = some (.ok r) := eq_some_ok _ (by decide)
  have hfound : r.2.1 = some ⟨farKey, [1], []⟩ := by decide
  have hs : (k₁.SuggestPeer fun _ => (1, 0)).map (·.map (·.2.1)) =
      some (.ok (some ⟨farKey, [1], []⟩)) := by
    rw [hr]
    exact congrArg (fun x => some (Except.ok x)) hfound
  exact ⟨k₁, tc, ta, hc, hf.conns_valid, ha, hf.addrs_valid, hs,
    (SuggestPeer_plain _ hc hf.conns_valid ha hf.addrs_valid).symm.trans hs⟩

end Swarm.Network
