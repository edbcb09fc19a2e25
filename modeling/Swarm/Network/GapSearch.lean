import Swarm.Network.Search
import Swarm.Pot.Gap

/-!
# Suggesting a peer by the biggest address gap

`suggestPeerInBinByGap` of network/kademlia.go, which no function of the sources calls. Given a
bin of known addresses, it takes the connections at the bin's order from the base (`PotWithPo`)
and their biggest address gap (`BiggestAddressGap`), then asks `callable` of the bin's entries in
turn: it takes the first callable entry in the gap, and otherwise one at the least order from the
gap's value. With no connection at the bin's order it is `suggestPeerInBin`. `callable`
increments the `retries` of every entry it accepts, the suggested one or not (`Kademlia.retried`).

Read `suggestPeerInBinByGap_of_run` first. In every state of a run it suggests a callable entry of
the bin, and one whenever the bin has any; a gap it reports is an address region no connection
covers (`GapAt.region`), and a callable entry in that region is preferred. `feed_gapConsumer` is
the invariant of its loop.
-/

namespace Swarm.Network

open Pot

/-- The variables of `suggestPeerInBinByGap` that its closure changes: the entries asked so far,
`foundPeer`, `candidatePeer` and `furthestPo`, and the entries `callable` accepted, in turn. -/
structure GapSearch where
  asked : Nat
  foundPeer : Option Entry
  candidatePeer : Option Entry
  furthestPo : Nat
  accepted : List Entry

/-- `addrPo`: the order of an entry from the gap's value, compared from the bin's order. -/
def addrPo (gapVal : Option Entry) (po : Nat) (e : Entry) : Nat :=
  (pof (toBytes gapVal) (address e).bits po).1

namespace Kademlia

/-- The table after `callable` accepted the entries `es`. It increments `e.retries` through the
pointer of each, an entry of the default addrs, which here is replaced by its copy with one more
retry. -/
def retried (k : Kademlia) (es : List Entry) : Kademlia :=
  k.setAddrs (k.defaultIndex.addrs.map fun t =>
    es.foldl (fun t e => (Add t { e with retries := e.retries + 1 } pof).1) t)

/-- The closure `suggestPeerInBinByGap` hands the bin's `ValIterator`: of the callable entries it
takes the first at order `gapPo` from `gapVal` and stops, and otherwise keeps the first one at a
lesser order than any before it. -/
def gapConsumer (k : Kademlia) (draws : Nat → Int × Fin 300000) (gapPo : Nat)
    (gapVal : Option Entry) (po : Nat) (e : Entry) (s : GapSearch) :
    Option (Except String (GapSearch × Bool)) :=
  (k.callable e (draws s.asked).1 (draws s.asked).2).map (·.map fun c =>
    let s := { s with asked := s.asked + 1 }
    if c then
      let s := { s with accepted := s.accepted ++ [e] }
      if addrPo gapVal po e = gapPo then ({ s with foundPeer := some e }, false)
      else if addrPo gapVal po e < s.furthestPo then
        ({ s with furthestPo := addrPo gapVal po e, candidatePeer := some e }, true)
      else (s, true)
    else (s, true))

/-- `suggestPeerInBinByGap`, `n` entries asked before: the table with the `retries` that
`callable` incremented, the entries asked after, and the entry whose address it suggests. -/
def suggestPeerInBinByGap (k : Kademlia) (draws : Nat → Int × Fin 300000) (bin : Bin Entry)
    (n : Nat) : Option (Except String (Kademlia × Nat × Option Entry)) :=
  match k.defaultIndex.conns.bind fun t => PotWithPo t k.base bin.proximityOrder pof with
  | none => (k.suggestPeerInBin draws bin n).map (·.map fun r => (k.retried r.2.toList, r))
  | some connBin =>
    let gap := BiggestAddressGap connBin
    ((bin.valIterator.run (guarded (k.gapConsumer draws gap.1 gap.2 bin.proximityOrder))
      (some (.ok ⟨n, none, none, 256, []⟩))).1).map
        (·.map fun s => (k.retried s.accepted, s.asked, s.foundPeer.or s.candidatePeer))

/-- The entries of `vs` that `callable` answers `true` for, asked one after another after `n`
others; `none` or the panic when an answer does not come. -/
def callableFrom (k : Kademlia) (draws : Nat → Int × Fin 300000) :
    Nat → List Entry → Option (Except String (List Entry))
  | _, [] => some (.ok [])
  | n, e :: vs =>
    match k.callable e (draws n).1 (draws n).2 with
    | some (.ok c) => (callableFrom k draws (n + 1) vs).map (·.map fun C => if c then e :: C else C)
    | some (.error err) => some (.error err)
    | none => none

end Kademlia

/-- The callable entries are entries of the list, and have no connection. -/
theorem mem_callableFrom {k : Kademlia} {draws : Nat → Int × Fin 300000} :
    ∀ {n : Nat} {vs C : List Entry}, k.callableFrom draws n vs = some (.ok C) →
      ∀ e ∈ C, e ∈ vs ∧ e.conn = none
  | _, [], C, hC => by
    cases hC
    simp
  | n, e :: vs, C, hC => by
    rw [Kademlia.callableFrom] at hC
    split at hC
    · rename_i c hc
      obtain ⟨C', hC', rfl⟩ := map_map_eq_ok hC
      have ih := mem_callableFrom hC'
      intro e' he'
      cases c with
      | false => exact ⟨.tail _ (ih e' he').1, (ih e' he').2⟩
      | true =>
        rcases List.mem_cons.1 he' with rfl | he'
        · exact ⟨.head _, callable_conn hc⟩
        · exact ⟨.tail _ (ih e' he').1, (ih e' he').2⟩
    · cases hC
    · cases hC

/-- `find?` with two predicates that agree on the elements of a list finds the same element. -/
theorem find?_congr {β : Type} {p q : β → Bool} :
    ∀ {l : List β}, (∀ x ∈ l, p x = q x) → l.find? p = l.find? q
  | [], _ => rfl
  | x :: l, h => by
    simp only [List.find?_cons, h x (.head _), find?_congr fun y hy => h y (.tail _ hy)]

/-- The choice of the search among the callable entries `L` when none lies at the gap: an entry
at the least order `ap` from the gap's value, that order being below 256 and `furthestPo`; or no
entry, with `furthestPo` 256, when every order is 256. -/
def Best (ap : Entry → Nat) (L : List Entry) : Option Entry → Nat → Prop
  | none, furthest => furthest = 256 ∧ ∀ e ∈ L, 256 ≤ ap e
  | some e, furthest => e ∈ L ∧ ap e = furthest ∧ furthest < 256 ∧ ∀ e' ∈ L, furthest ≤ ap e'

/-- The order a choice records is at most 256. -/
theorem Best.le_256 {ap : Entry → Nat} {L : List Entry} :
    ∀ {cand : Option Entry} {furthest : Nat}, Best ap L cand furthest → furthest ≤ 256
  | none, _, h => h.1.le
  | some _, _, h => h.2.2.1.le

/-- A callable entry at no lesser order than the choice leaves it. -/
theorem Best.snoc_of_le {ap : Entry → Nat} {L : List Entry} {e : Entry} :
    ∀ {cand : Option Entry} {furthest : Nat}, Best ap L cand furthest → furthest ≤ ap e →
      Best ap (L ++ [e]) cand furthest
  | none, _, ⟨h256, hL⟩, he => ⟨h256, fun e' he' => (List.mem_append.1 he').elim (hL e')
      fun h => List.mem_singleton.1 h ▸ h256 ▸ he⟩
  | some _, _, ⟨hmem, hap, hlt, hL⟩, he => ⟨List.mem_append_left _ hmem, hap, hlt,
      fun e' he' => (List.mem_append.1 he').elim (hL e') fun h => List.mem_singleton.1 h ▸ he⟩

/-- A callable entry at a lesser order becomes the choice. -/
theorem Best.snoc_of_lt {ap : Entry → Nat} {L : List Entry} {e : Entry} {cand : Option Entry}
    {furthest : Nat} (h : Best ap L cand furthest) (he : ap e < furthest) :
    Best ap (L ++ [e]) (some e) (ap e) := by
  have hle : ∀ e' ∈ L, furthest ≤ ap e' := by
    cases cand with
    | none => exact fun e' he' => h.1 ▸ h.2 e' he'
    | some _ => exact h.2.2.2
  refine ⟨by simp, rfl, by have := h.le_256; omega, ?_⟩
  simp only [List.mem_append, List.mem_singleton]
  rintro e' (he' | rfl)
  · have := hle e' he'
    omega
  · exact le_rfl

/-- The choice lies at the least order of the callable entries. -/
theorem Best.le {ap : Entry → Nat} {L : List Entry} {e : Entry} {furthest : Nat}
    (h : Best ap L (some e) furthest) : ∀ e' ∈ L, ap e ≤ ap e' :=
  fun e' he' => h.2.1 ▸ h.2.2.2 e' he'

section Loop

variable (k : Kademlia) (draws : Nat → Int × Fin 300000) (gapPo : Nat) (gapVal : Option Entry)
  (po : Nat)

/-- The loop of `suggestPeerInBinByGap` over entries whose answers all come: it finds the first
callable entry at the gap, if there is one; otherwise it finds none and chooses among all the
callable entries as `Best` says. The entries it accepts are the callable ones up to the first at
the gap. -/
theorem feed_gapConsumer :
    ∀ (vs : List Entry) (s : GapSearch) (L C : List Entry),
      k.callableFrom draws s.asked vs = some (.ok C) → s.foundPeer = none →
      Best (addrPo gapVal po) L s.candidatePeer s.furthestPo →
      (∀ e ∈ L, addrPo gapVal po e ≠ gapPo) →
      ∃ s', (feed (guarded (k.gapConsumer draws gapPo gapVal po)) vs (some (.ok s))).1 =
          some (.ok s') ∧
        s'.accepted = s.accepted ++ C.takeWhile (fun e => addrPo gapVal po e ≠ gapPo) ++
          (C.find? fun e => addrPo gapVal po e = gapPo).toList ∧
        match C.find? fun e => addrPo gapVal po e = gapPo with
        | some e => s'.foundPeer = some e
        | none => s'.foundPeer = none ∧
            Best (addrPo gapVal po) (L ++ C) s'.candidatePeer s'.furthestPo
  | [], s, L, C, hC, hf, hb, _ => by
    cases hC
    exact ⟨s, rfl, by simp, hf, by simpa using hb⟩
  | e :: vs, s, L, C, hC, hf, hb, hL => by
    rw [Kademlia.callableFrom] at hC
    split at hC
    · rename_i c hc
      obtain ⟨C', hC', rfl⟩ := map_map_eq_ok hC
      have hstep : ∀ s₁ go, k.gapConsumer draws gapPo gapVal po e s = some (.ok (s₁, go)) →
          (feed (guarded (k.gapConsumer draws gapPo gapVal po)) (e :: vs) (some (.ok s))).1 =
            if go then (feed (guarded (k.gapConsumer draws gapPo gapVal po)) vs
              (some (.ok s₁))).1 else some (.ok s₁) := fun s₁ go h => by
        rw [feed_cons]
        simp only [guarded, h]
        split <;> rfl
      cases c with
      | false =>
        -- not callable: the search goes on as it was
        rw [hstep { s with asked := s.asked + 1 } true
          (by simp [Kademlia.gapConsumer, hc, Except.map]), if_pos rfl]
        simpa using feed_gapConsumer vs { s with asked := s.asked + 1 } L C' hC' hf hb hL
      | true =>
        by_cases hat : addrPo gapVal po e = gapPo
        · -- callable at the gap: the search stops with it
          refine ⟨⟨s.asked + 1, some e, s.candidatePeer, s.furthestPo, s.accepted ++ [e]⟩, ?_, ?_,
            ?_⟩
          · rw [hstep ⟨s.asked + 1, some e, s.candidatePeer, s.furthestPo, s.accepted ++ [e]⟩ false
              (by simp [Kademlia.gapConsumer, hc, hat, Except.map]),
              if_neg Bool.false_ne_true]
          · simp [List.takeWhile_cons, hat]
          · simp [hat]
        · -- callable off the gap: accepted, and a candidate if it is nearer to the gap's value
          have hL' : ∀ e' ∈ L ++ [e], addrPo gapVal po e' ≠ gapPo := fun e' he' =>
            (List.mem_append.1 he').elim (hL e') fun h => List.mem_singleton.1 h ▸ hat
          by_cases hlt : addrPo gapVal po e < s.furthestPo
          · let s₁ : GapSearch :=
              ⟨s.asked + 1, s.foundPeer, some e, addrPo gapVal po e, s.accepted ++ [e]⟩
            rw [hstep s₁ true (by simp [s₁, Kademlia.gapConsumer, hc, hat, hlt, Except.map]),
              if_pos rfl]
            simpa [s₁, List.takeWhile_cons, List.find?_cons, hat] using
              feed_gapConsumer vs s₁ (L ++ [e]) C' hC' hf (hb.snoc_of_lt hlt) hL'
          · let s₁ : GapSearch := { s with asked := s.asked + 1, accepted := s.accepted ++ [e] }
            rw [hstep s₁ true (by simp [s₁, Kademlia.gapConsumer, hc, hat, hlt, Except.map]),
              if_pos rfl]
            simpa [s₁, List.takeWhile_cons, List.find?_cons, hat] using
              feed_gapConsumer vs s₁ (L ++ [e]) C' hC' hf (hb.snoc_of_le (Nat.le_of_not_lt hlt)) hL'
    · cases hC
    · cases hC

/-- Over entries whose answers all come, `firstCallable` finds the first callable one. -/
theorem firstCallable_of_callableFrom :
    ∀ (vs : List Entry) (m : Nat) (C : List Entry), k.callableFrom draws m vs = some (.ok C) →
      ∃ asked, firstCallable k draws vs m = some (.ok (asked, C.head?))
  | [], m, C, hC => by
    cases hC
    exact ⟨m, rfl⟩
  | e :: vs, m, C, hC => by
    rw [Kademlia.callableFrom] at hC
    split at hC
    · rename_i c hc
      obtain ⟨C', hC', rfl⟩ := map_map_eq_ok hC
      cases c with
      | false =>
        rw [firstCallable, hc]
        exact firstCallable_of_callableFrom vs (m + 1) C' hC'
      | true => exact ⟨m + 1, by rw [firstCallable, hc]; rfl⟩
    · cases hC
    · cases hC

end Loop

/-- With connections at the bin's order, `suggestPeerInBinByGap` on a bin that runs over its
values, whose answers all come, suggests the first callable entry at the gap `BiggestAddressGap`
reports, having accepted the callable entries up to it; otherwise it accepts all the callable
entries and suggests its choice among them. -/
theorem suggestPeerInBinByGap_search {k : Kademlia} {draws : Nat → Int × Fin 300000}
    {B : Bin Entry} (hrun : ∀ {σ : Type} (consume : Entry → σ → σ × Bool) (s : σ),
      B.valIterator.run consume s = feed consume B.valIterator.vals s)
    {connBin : Pot Entry} (hconn : (k.defaultIndex.conns.bind fun t =>
      PotWithPo t k.base B.proximityOrder pof) = some connBin)
    {o : Nat} {w : Option Entry} (hgap : BiggestAddressGap connBin = (o, w))
    {n : Nat} {C : List Entry} (hC : k.callableFrom draws n B.valIterator.vals = some (.ok C)) :
    ∃ asked r A, k.suggestPeerInBinByGap draws B n = some (.ok (k.retried A, asked, r)) ∧
      ((∃ e ∈ C, addrPo w B.proximityOrder e = o) →
        r = C.find? (fun e => addrPo w B.proximityOrder e = o) ∧
        A = C.takeWhile (fun e => addrPo w B.proximityOrder e ≠ o) ++ r.toList) ∧
      ((∀ e ∈ C, addrPo w B.proximityOrder e ≠ o) →
        A = C ∧ ∃ furthest, Best (addrPo w B.proximityOrder) C r furthest) := by
  obtain ⟨s', hfeed, hacc, hs'⟩ := feed_gapConsumer k draws o w B.proximityOrder
    B.valIterator.vals ⟨n, none, none, 256, []⟩ [] C hC rfl ⟨rfl, by simp⟩ (by simp)
  refine ⟨s'.asked, s'.foundPeer.or s'.candidatePeer, s'.accepted, ?_, fun hat => ?_,
    fun hno => ?_⟩
  · simp only [Kademlia.suggestPeerInBinByGap, hconn, hgap, hrun, hfeed]
    rfl
  · cases hfind : C.find? fun e => addrPo w B.proximityOrder e = o with
    | none =>
      obtain ⟨e, he, heo⟩ := hat
      exact absurd (List.find?_eq_none.1 hfind e he) (by simpa using heo)
    | some e =>
      rw [hfind] at hacc hs'
      rw [hs', hacc]
      exact ⟨rfl, rfl⟩
  · rw [List.find?_eq_none.2 fun e he => by simpa using hno e he] at hacc hs'
    obtain ⟨hf, hb⟩ := hs'
    refine ⟨?_, s'.furthestPo, ?_⟩
    · rw [hacc, List.nil_append, Option.toList_none, List.append_nil]
      exact List.takeWhile_eq_self_iff.2 fun e he => decide_eq_true (hno e he)
    · rw [hf, Option.none_or]
      simpa using hb

/-- Two values at one order `p` from the base share at least `p` bits, so `addrPo` from one of
them, compared from the bin's order, is their common prefix. -/
theorem addrPo_eq {x e : Entry} {base : Key 256} {p : Nat}
    (hx : cpl (address x).bits base.bits = p) (he : cpl (address e).bits base.bits = p) :
    addrPo (some x) p e = cpl (address e).bits (address x).bits := by
  have hle := min_cpl_le (address x).bits base.bits (address e).bits
  rw [hx, cpl_comm base.bits, he, min_self] at hle
  rw [addrPo, toBytes, pof, Key.defaultPof_key hle, cpl_comm]

/-- A connection at another order from the base than a gap's value shares fewer bits with it
than the value's order. -/
theorem cpl_lt_of_cpl_ne {x v : Entry} {base : Key 256} {p : Nat}
    (hx : cpl (address x).bits base.bits = p) (hv : cpl (address v).bits base.bits ≠ p) :
    cpl (address v).bits (address x).bits ≤ p := by
  rcases Nat.lt_or_gt_of_ne hv with hlt | hlt
  · rw [cpl_eq_of_lt (by rw [cpl_comm base.bits, hx]; exact hlt)]
    exact hlt.le
  · rw [cpl_comm, cpl_eq_of_lt (by rw [hx, cpl_comm]; exact hlt), hx]

section Connections

variable {c connBin : Pot Entry} {base : Key 256} {p : Nat}

/-- The values at one order from the base that `PotWithPo` returns form a well-formed pot. -/
theorem wf_of_potWithPo (hc : Valid c) (hp : PotWithPo c base p pof = some connBin) :
    Wf connBin ∧ connBin.po = p := by
  rcases hc with rfl | ⟨-, hwf, -⟩
  · simp [PotWithPo, empty, newPot] at hp
  · exact (PotWithPo_wf base _ hwf connBin hp).imp_right Nat.cast_inj.1

/-- They are the values of the pot at that order. -/
theorem mem_potWithPo (hc : Valid c) (hp : PotWithPo c base p pof = some connBin) (v : Entry) :
    v ∈ vals connBin ↔ v ∈ vals c ∧ cpl (address v).bits base.bits = p := by
  rw [((PotWithPo_spec hc base p).2 connBin hp).1.mem_iff, List.mem_filter,
    decide_eq_true_iff, Nat.cast_inj]

/-- A gap that `BiggestAddressGap` reports below order 256 in the values of a valid pot at
order `p` from `base` lies at one of them, and is an address region that no value of the pot
covers. -/
theorem gap_of_potWithPo {o : Nat} {w : Option Entry} (hc : Valid c)
    (hp : PotWithPo c base p pof = some connBin)
    (hgap : BiggestAddressGap connBin = (o, w)) (ho : o < 256) :
    ∃ x, w = some x ∧ x ∈ vals c ∧ cpl (address x).bits base.bits = p ∧
      ∀ v ∈ vals c, cpl (address v).bits (address x).bits ≠ o := by
  obtain ⟨hwf, hpo⟩ := wf_of_potWithPo hc hp
  obtain ⟨x, rfl, hgx⟩ := BiggestAddressGap_gapAt hwf o w hgap ho
  obtain ⟨hxm, hbo, hreg⟩ := hgx.region hwf ho
  obtain ⟨hxc, hxo⟩ := (mem_potWithPo hc hp x).1 hxm
  refine ⟨x, rfl, hxc, hxo, fun v hv => ?_⟩
  by_cases hvo : cpl (address v).bits base.bits = p
  · exact hreg v ((mem_potWithPo hc hp v).2 ⟨hv, hvo⟩)
  · have := cpl_lt_of_cpl_ne hxo hvo
    omega

/-- Where the default pots keep the flags, a known address at the bin's order without a
connection lies below order 256 from the value of the gap in the connections at that order: the
value is a connection, or nil. -/
theorem addrPo_lt_256 {a : Pot Entry} (hf : Flags c a) (hp : PotWithPo c base p pof = some connBin)
    {e : Entry} (he : e ∈ vals a) (hn : e.conn = none) (hep : cpl (address e).bits base.bits = p) :
    addrPo (BiggestAddressGap connBin).2 p e < 256 := by
  cases hw : (BiggestAddressGap connBin).2 with
  | none => simp [addrPo, toBytes, pof]
  | some x =>
    obtain ⟨hxc, hxp⟩ := (mem_potWithPo hf.conns_valid hp x).1
      (BiggestAddressGap_mem (wf_of_potWithPo hf.conns_valid hp).1 x hw)
    rw [addrPo_eq hxp hep]
    exact Key.cpl_lt (hf.address_ne_of_conn_none hxc he hn)

end Connections

section Run

variable (isSameAs : Capability → Capability → Bool) {addr : Key 256} {params : KadParams}
  {full light : Capability} {calls : List Call} {k : Kademlia}

/-- In every state of a run that keeps the flags, `suggestPeerInBinByGap` on a bin of the known
addresses, whose answers all come, suggests a callable entry of the bin, which is a known
address without a connection at the bin's order, and suggests one whenever the bin has any. The
table it returns has the `retries` of the accepted entries `A` incremented: with no connection
at the bin's order, of the first callable entry, which it suggests. Otherwise, with the gap
`BiggestAddressGap` reports in the connections at that order, it suggests the first callable
entry at the gap and accepts those up to it; failing one, it accepts every callable entry and
suggests one at the least order from the gap's value. A gap below order 256 lies at a
connection and is an address region that no connection covers. -/
theorem suggestPeerInBinByGap_of_run
    (h : Run isSameAs keepsLive (NewKademlia addr params full light) calls k)
    (draws : Nat → Int × Fin 300000) {a : Pot Entry} (ha : k.defaultIndex.addrs = some a)
    {B : Bin Entry} (hB : B ∈ binsOf k.base.bits pof 0 a) (n : Nat) {C : List Entry}
    (hC : k.callableFrom draws n B.valIterator.vals = some (.ok C)) :
    ∃ asked r A, k.suggestPeerInBinByGap draws B n = some (.ok (k.retried A, asked, r)) ∧
      (C ≠ [] → r.isSome) ∧
      (∀ e, r = some e → e ∈ A ∧ e ∈ C ∧ e ∈ vals a ∧ e.conn = none ∧
        cpl (address e).bits k.base.bits = B.proximityOrder) ∧
      (∀ c, k.defaultIndex.conns = some c → PotWithPo c k.base B.proximityOrder pof = none →
        r = C.head? ∧ A = C.take 1) ∧
      ∀ c connBin o w, k.defaultIndex.conns = some c →
        PotWithPo c k.base B.proximityOrder pof = some connBin →
        BiggestAddressGap connBin = (o, w) →
        ((∃ e ∈ C, addrPo w B.proximityOrder e = o) →
          r = C.find? (fun e => addrPo w B.proximityOrder e = o) ∧
          A = C.takeWhile (fun e => addrPo w B.proximityOrder e ≠ o) ++ r.toList) ∧
        ((∀ e ∈ C, addrPo w B.proximityOrder e ≠ o) → A = C ∧
          ∀ e, r = some e → ∀ e' ∈ C, addrPo w B.proximityOrder e ≤ addrPo w B.proximityOrder e') ∧
        (o < 256 → ∃ x, w = some x ∧ x ∈ vals c ∧
          cpl (address x).bits k.base.bits = B.proximityOrder ∧
          (∀ v ∈ vals c, cpl (address v).bits (address x).bits ≠ o) ∧
          ∀ e ∈ C, addrPo w B.proximityOrder e = cpl (address e).bits (address x).bits) := by
  obtain ⟨c, a', hc, ha', hf⟩ := flags_run isSameAs h (flags_new addr params full light)
  obtain rfl : a' = a := Option.some.inj (ha'.symm.trans ha)
  have hg : Groups k.base 0 (binsOf k.base.bits pof 0 a') (vals a') :=
    groups_of_valid k.base 0 hf.addrs_valid
  have hrun : ∀ {σ : Type} (consume : Entry → σ → σ × Bool) (s : σ),
      B.valIterator.run consume s = feed consume B.valIterator.vals s := hg.run_eq B hB
  have hCsub : ∀ e ∈ C, e ∈ vals a' ∧ e.conn = none ∧
      cpl (address e).bits k.base.bits = B.proximityOrder := fun e he =>
    ⟨(hg.mem_of_mem hB (mem_callableFrom hC e he).1).1, (mem_callableFrom hC e he).2,
      hg.cpl_eq B hB e (mem_callableFrom hC e he).1⟩
  cases hp : PotWithPo c k.base B.proximityOrder pof with
  | none =>
    -- no connection at the bin's order: `suggestPeerInBin`
    obtain ⟨asked, hfirst⟩ := firstCallable_of_callableFrom k draws B.valIterator.vals n C hC
    refine ⟨asked, C.head?, C.take 1, ?_, fun hne => ?_, fun e he => ?_,
      fun c' hc' _ => ⟨rfl, rfl⟩, fun c' connBin o w hc' hp' => ?_⟩
    · simp only [Kademlia.suggestPeerInBinByGap, hc, Option.some_bind, hp,
        suggestPeerInBin_eq hrun, hfirst, List.take_one]
      rfl
    · obtain ⟨e, C'⟩ := C
      exacts [absurd rfl hne, rfl]
    · have heC := List.mem_of_mem_head? he
      exact ⟨by simp [List.take_one, he], heC, hCsub e heC⟩
    · cases hc.symm.trans hc'
      cases hp.symm.trans hp'
  | some connBin =>
    obtain ⟨o, w, hgap⟩ : ∃ o w, BiggestAddressGap connBin = (o, w) := ⟨_, _, rfl⟩
    obtain ⟨asked, r, A, hr, hat, hno⟩ :=
      suggestPeerInBinByGap_search hrun (by rw [hc, Option.some_bind, hp]) hgap hC
    -- what is suggested, and that something is when an entry is callable
    have hsugg : (C ≠ [] → r.isSome) ∧ ∀ e, r = some e → e ∈ A ∧ e ∈ C := by
      by_cases hin : ∃ e ∈ C, addrPo w B.proximityOrder e = o
      · obtain ⟨rfl, rfl⟩ := hat hin
        cases hfind : C.find? fun e => addrPo w B.proximityOrder e = o with
        | none =>
          obtain ⟨e, he, heo⟩ := hin
          exact absurd (List.find?_eq_none.1 hfind e he) (by simpa using heo)
        | some e =>
          refine ⟨fun _ => rfl, fun e' he' => ?_⟩
          cases he'
          exact ⟨by simp, List.mem_of_find?_eq_some hfind⟩
      · obtain ⟨hA, f, hb⟩ := hno fun e he heo => hin ⟨e, he, heo⟩
        refine ⟨fun hne => ?_, fun e he => by rw [he] at hb; exact ⟨hA ▸ hb.1, hb.1⟩⟩
        cases r with
        | some => rfl
        | none =>
          obtain ⟨e, he⟩ := List.exists_mem_of_ne_nil C hne
          have := hgap ▸ addrPo_lt_256 hf hp (hCsub e he).1 (hCsub e he).2.1 (hCsub e he).2.2
          exact absurd (hb.2 e he) (by simpa using this)
    refine ⟨asked, r, A, hr, hsugg.1, fun e he => ⟨(hsugg.2 e he).1, (hsugg.2 e he).2,
      hCsub e (hsugg.2 e he).2⟩, fun c' hc' hp' => ?_, fun c' connBin' o' w' hc' hp' hgap' => ?_⟩
    · cases hc.symm.trans hc'
      cases hp.symm.trans hp'
    · cases hc.symm.trans hc'
      cases hp.symm.trans hp'
      obtain ⟨rfl, rfl⟩ := Prod.ext_iff.1 (hgap'.symm.trans hgap)
      refine ⟨hat, fun h' => ?_, fun ho => ?_⟩
      · obtain ⟨hA, _, hb⟩ := hno h'
        refine ⟨hA, fun e he => ?_⟩
        rw [he] at hb
        exact hb.le
      · obtain ⟨x, rfl, hxc, hxo, hreg⟩ := gap_of_potWithPo hf.conns_valid hp hgap ho
        exact ⟨x, rfl, hxc, hxo, hreg, fun e he => addrPo_eq hxo (hCsub e he).2.2⟩

set_option maxRecDepth 10000 in
/-- `suggestPeerInBinByGap` on the bin of a peer that connected and went off: its address is
callable. -/
theorem suggestPeerInBinByGap_of_run_off :
    ∃ k a B C, Run (fun a b => a == b) keepsLive
        (NewKademlia zeroKey NewKadParams ⟨0, [true]⟩ ⟨1, []⟩)
        [.on ⟨0, ⟨farKey, [1], []⟩⟩ 0, .off ⟨0, ⟨farKey, [1], []⟩⟩ 0] k ∧
      k.defaultIndex.addrs = some a ∧ B ∈ binsOf k.base.bits pof 0 a ∧
      k.callableFrom (fun _ => (0, 0)) 0 B.valIterator.vals = some (.ok C) ∧ C ≠ [] ∧
      ∃ asked r A,
        k.suggestPeerInBinByGap (fun _ => (0, 0)) B 0 = some (.ok (k.retried A, asked, r)) ∧
        (C ≠ [] → r.isSome) ∧
        (∀ e, r = some e → e ∈ A ∧ e ∈ C ∧ e ∈ vals a ∧ e.conn = none ∧
          cpl (address e).bits k.base.bits = B.proximityOrder) ∧
        (∀ c, k.defaultIndex.conns = some c → PotWithPo c k.base B.proximityOrder pof = none →
          r = C.head? ∧ A = C.take 1) ∧
        ∀ c connBin o w, k.defaultIndex.conns = some c →
          PotWithPo c k.base B.proximityOrder pof = some connBin →
          BiggestAddressGap connBin = (o, w) →
          ((∃ e ∈ C, addrPo w B.proximityOrder e = o) →
            r = C.find? (fun e => addrPo w B.proximityOrder e = o) ∧
            A = C.takeWhile (fun e => addrPo w B.proximityOrder e ≠ o) ++ r.toList) ∧
          ((∀ e ∈ C, addrPo w B.proximityOrder e ≠ o) → A = C ∧
            ∀ e, r = some e → ∀ e' ∈ C,
              addrPo w B.proximityOrder e ≤ addrPo w B.proximityOrder e') ∧
          (o < 256 → ∃ x, w = some x ∧ x ∈ vals c ∧
            cpl (address x).bits k.base.bits = B.proximityOrder ∧
            (∀ v ∈ vals c, cpl (address v).bits (address x).bits ≠ o) ∧
            ∀ e ∈ C, addrPo w B.proximityOrder e = cpl (address e).bits (address x).bits) := by
  let same : Capability → Capability → Bool := fun a b => a == b
  let k₀ := NewKademlia zeroKey NewKadParams ⟨0, [true]⟩ ⟨1, []⟩
  let p : Peer := ⟨0, ⟨farKey, [1], []⟩⟩
  let k₁ := (k₀.call same (.on p 0)).toOption.getD k₀
  let k₂ := (k₁.call same (.off p 0)).toOption.getD k₀
  let a₂ := k₂.defaultIndex.addrs.getD empty
  let B₂ := (binsOf k₂.base.bits pof 0 a₂).head?.getD ⟨0, 0, .pin none⟩
  have h₁ : k₀.call same (.on p 0) = .ok k₁ := rfl
  have h₂ : k₁.call same (.off p 0) = .ok k₂ := rfl
  have hguard : keepsLive k₁ (.off p 0) := show k₁.connected farKey = true by decide
  have hrun : Run same keepsLive k₀ [.on p 0, .off p 0] k₂ :=
    Run.snoc (Run.snoc (Run.nil k₀) trivial h₁) hguard h₂
  have ha : k₂.defaultIndex.addrs = some a₂ := rfl
  have hB : B₂ ∈ binsOf k₂.base.bits pof 0 a₂ := List.mem_of_mem_head? (rfl : _ = some B₂)
  have hC : k₂.callableFrom (fun _ => (0, 0)) 0 B₂.valIterator.vals =
      some (.ok [newEntryFromBzzAddress p.bzzAddr 0]) := rfl
  exact ⟨k₂, a₂, B₂, _, hrun, ha, hB, hC, List.cons_ne_nil _ _,
    suggestPeerInBinByGap_of_run same hrun (fun _ => (0, 0)) ha hB 0 hC⟩

end Run

end Swarm.Network
