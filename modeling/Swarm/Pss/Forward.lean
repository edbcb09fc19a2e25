import Swarm.Network.Flags
import Swarm.Pot.Bins
import Swarm.Pss.Handle

/-!
# Forwarding a message

`forward` of pot/pot.go sends a message on to the connected peers nearest its destination. It
pads the destination `To` with zero bytes to a full address `to`, and takes as broadcast threshold
the proximity order of `to` to the base address, capped at the neighbourhood depth and at the
luminosity radius `8 * len(To)`; when the cap is below both bounds it raises the threshold by one
and sends once only. It then walks the bins of the conns relative to `to` in descending order,
through the load balancer, and tries the peers of each bin in turn: it stops at a bin below the
threshold once a send succeeded, right after a successful send when it sends once only, and right
after a successful send to a peer at order 256 from `to`.

The load balancer is outside the sources: it presents the bins of `Kademlia.EachBinDesc(to, 0)`,
each bin's peers in an order of its own, `lbPeers`. The outcome of a send attempt is `sendFunc` of
the attempt's number and the peer, any function at all.

The main theorem, `forward_law`, says that on a valid conns pot `forward` returns, tries each
connected peer at most once, nearest to `to` first, fails exactly when no send succeeded and then
after trying every peer, stops right after its first successful send when it sends once only, and
otherwise tries every peer at least as close to `to` as the capped threshold, unless a successful
send to a peer at `to` itself stopped it (`forward_stops_partial` shows that `To` need not be a full
address for that).
-/

namespace Swarm.Pss

open Pot
open Network (Entry zeroKey farKey)

/-- The variables of `forward`'s bin consumer: `sent`, the number of successful sends, and the send
attempts so far, each peer with whether the send to it succeeded. -/
structure Forwarding where
  sent : Nat
  attempts : List (Entry × Bool)

section Consumer

variable (sendFunc : Nat → Entry → Bool) (onlySendOnce : Bool)

/-- The loop of `forward`'s consumer over the peers of a bin at order `po`. The send is attempted
with `sendFunc`, numbered by the attempts before it. -/
def sendLoop (po : Nat) : List Entry → Forwarding → Forwarding × Bool
  | [], s => (s, true)
  | e :: es, s =>
    if sendFunc s.attempts.length e then
      let s : Forwarding := ⟨s.sent + 1, s.attempts ++ [(e, true)]⟩
      if onlySendOnce then (s, false)
      else if po = addressLength * 8 then (s, false)
      else sendLoop po es s
    else sendLoop po es ⟨s.sent, s.attempts ++ [(e, false)]⟩

/-- The consumer `forward` passes to the load balancer's `EachBinDesc`, which presents a bin's
peers in the order `lbPeers`. -/
def forwardConsumer (lbPeers : Bin Entry → List Entry) (broadcastThreshold : Nat)
    (bin : Bin Entry) (s : Forwarding) : Forwarding × Bool :=
  if bin.proximityOrder < broadcastThreshold ∧ 0 < s.sent then (s, false)
  else sendLoop sendFunc onlySendOnce bin.proximityOrder (lbPeers bin) s

end Consumer

/-- `to` of `forward`: the destination `To` padded with zero bytes to `addressLength`. -/
def forwardTo (msg : Message) : List UInt8 :=
  msg.toAddr ++ List.replicate (addressLength - msg.toAddr.length) 0

/-- `forward` on the conns `conns` of the kademlia's default index, at clock reading `now`: the new
state, the send attempts in order, and the error returned. `copy(to[:len(msg.To)], msg.To)`
panics on a destination longer than `addressLength`. -/
def forward (digest : Message → List UInt8) (p : Pss) (conns : Option (Pot Entry))
    (lbPeers : Bin Entry → List Entry) (sendFunc : Nat → Entry → Bool) (msg : Message)
    (now : Time) :
    Except String (Pss × List (Entry × Bool) × Except String Unit) :=
  if addressLength < msg.toAddr.length then
    throw ("slice bounds out of range [:" ++ toString msg.toAddr.length ++ "] with capacity " ++
      toString addressLength)
  else
    let to' := forwardTo msg
    let neighbourhoodDepth := p.neighbourhoodDepth
    let luminosityRadius := msg.toAddr.length * 8
    let pof := defaultPof neighbourhoodDepth
    let broadcastThreshold := (pof (bytesBits to') (bytesBits p.baseAddr) 0).1
    let broadcastThreshold :=
      if broadcastThreshold > luminosityRadius then luminosityRadius else broadcastThreshold
    let onlySendOnce :=
      decide (broadcastThreshold < luminosityRadius ∧ broadcastThreshold < neighbourhoodDepth)
    let broadcastThreshold := if onlySendOnce then broadcastThreshold + 1 else broadcastThreshold
    let s : Forwarding := ⟨0, []⟩
    let s := match conns with
      | none => s
      | some t => EachBin t (bytesBits to') Network.pof 0
          (forwardConsumer sendFunc onlySendOnce lbPeers broadcastThreshold) false s
    pure (p.addFwdCache digest msg now, s.attempts,
      if s.sent = 0 then throw "unable to forward to any peers" else pure ())

/-! ## What the consumer keeps -/

section Tracks

variable {sendFunc : Nat → Entry → Bool} {onlySendOnce : Bool}

/-- `sent` counts the successful attempts, and the outcome of each attempt is that of `sendFunc`
for its number and peer. -/
def Tracks (sendFunc : Nat → Entry → Bool) (s : Forwarding) : Prop :=
  s.sent = s.attempts.countP (·.2) ∧
    ∀ i (h : i < s.attempts.length), s.attempts[i].2 = sendFunc i s.attempts[i].1

/-- An attempt on a peer, with the outcome `sendFunc` gives for its number, keeps the count of
successful sends. -/
theorem Tracks.attempt {s : Forwarding} (hs : Tracks sendFunc s) (e : Entry) :
    Tracks sendFunc ⟨if sendFunc s.attempts.length e then s.sent + 1 else s.sent,
      s.attempts ++ [(e, sendFunc s.attempts.length e)]⟩ := by
  refine ⟨?_, fun i h => ?_⟩
  · rw [List.countP_append, ← hs.1]
    cases sendFunc s.attempts.length e <;> simp
  · rw [List.length_append, List.length_singleton] at h
    rcases Nat.lt_or_ge i s.attempts.length with hi | hi
    · simp only [List.getElem_append_left hi]
      exact hs.2 i hi
    · obtain rfl : i = s.attempts.length := by omega
      simp

/-- The send loop over a bin's peers keeps the count of successful sends and the outcome of each
attempt. -/
theorem sendLoop_tracks (po : Nat) : ∀ (es : List Entry) (s : Forwarding), Tracks sendFunc s →
    Tracks sendFunc (sendLoop sendFunc onlySendOnce po es s).1
  | [], _, hs => hs
  | e :: es, s, hs => by
    have h := hs.attempt e
    rw [sendLoop]
    by_cases hsend : sendFunc s.attempts.length e = true
    · simp only [hsend, ↓reduceIte] at h ⊢
      split_ifs
      · exact h
      · exact h
      · exact sendLoop_tracks po es _ h
    · simp only [hsend, Bool.false_eq_true, ↓reduceIte] at h ⊢
      exact sendLoop_tracks po es _ h

/-- The consumer of one bin keeps the count of successful sends and the outcome of each attempt,
whether it skips the bin or sends to its peers. -/
theorem forwardConsumer_tracks (lbPeers : Bin Entry → List Entry) (bt : Nat) (B : Bin Entry)
    (s : Forwarding) (hs : Tracks sendFunc s) :
    Tracks sendFunc (forwardConsumer sendFunc onlySendOnce lbPeers bt B s).1 := by
  unfold forwardConsumer
  split
  · exact hs
  · exact sendLoop_tracks _ _ _ hs

end Tracks

/-! ## Where the consumer stops -/

section Stops

variable (ord : Entry → Nat)

/-- An attempt after which the consumer stops: a successful send, when it sends once only or the
peer is at order `8 * addressLength` from the destination, `ord` giving a peer's order. -/
def StopsAfter (onlySendOnce : Bool) (x : Entry × Bool) : Prop :=
  x.2 = true ∧ (onlySendOnce = true ∨ ord x.1 = addressLength * 8)

/-- Attempts that end at the first one after which the consumer stops. -/
def EndsAtStop (onlySendOnce : Bool) (D : List (Entry × Bool)) : Prop :=
  ∃ D' x, D = D' ++ [x] ∧ (∀ y ∈ D', ¬StopsAfter ord onlySendOnce y) ∧
    StopsAfter ord onlySendOnce x

/-- Attempts after which the consumer goes on, put before attempts that end at a stop, still end at
that stop. -/
theorem EndsAtStop.append {onlySendOnce : Bool} {P D : List (Entry × Bool)}
    (hP : ∀ y ∈ P, ¬StopsAfter ord onlySendOnce y) (hD : EndsAtStop ord onlySendOnce D) :
    EndsAtStop ord onlySendOnce (P ++ D) := by
  obtain ⟨D', x, rfl, hD', hx⟩ := hD
  exact ⟨P ++ D', x, (List.append_assoc _ _ _).symm,
    fun y hy => (List.mem_append.1 hy).elim (hP y) (hD' y), hx⟩

/-- The loop over a bin's peers, all at order `po`, tries a first part of them, in order: all of
them, none a stop, when it asks for the next bin; else up to the first stop. -/
theorem sendLoop_spec (sendFunc : Nat → Entry → Bool) (onlySendOnce : Bool) (po : Nat) :
    ∀ (es : List Entry) (s : Forwarding), (∀ e ∈ es, ord e = po) →
    ∃ D rest, (sendLoop sendFunc onlySendOnce po es s).1.attempts = s.attempts ++ D ∧
      D.map Prod.fst ++ rest = es ∧
      (((sendLoop sendFunc onlySendOnce po es s).2 = true ∧ rest = [] ∧
          ∀ x ∈ D, ¬StopsAfter ord onlySendOnce x) ∨
        ((sendLoop sendFunc onlySendOnce po es s).2 = false ∧ EndsAtStop ord onlySendOnce D))
  | [], s, _ => ⟨[], [], by simp [sendLoop], rfl, .inl ⟨rfl, rfl, nofun⟩⟩
  | e :: es, s, hes => by
    have he := hes e (.head _)
    -- after an attempt at `e` that is no stop, the loop goes on with the rest of the peers
    have hnext : ∀ (x : Entry × Bool) (s' : Forwarding), x.1 = e →
        ¬StopsAfter ord onlySendOnce x → s'.attempts = s.attempts ++ [x] →
        ∃ D rest, (sendLoop sendFunc onlySendOnce po es s').1.attempts = s.attempts ++ D ∧
          D.map Prod.fst ++ rest = e :: es ∧
          (((sendLoop sendFunc onlySendOnce po es s').2 = true ∧ rest = [] ∧
              ∀ x ∈ D, ¬StopsAfter ord onlySendOnce x) ∨
            ((sendLoop sendFunc onlySendOnce po es s').2 = false ∧
              EndsAtStop ord onlySendOnce D)) := by
      intro x s' hx hstop hs'
      obtain ⟨D, rest, h₁, h₂, h₃⟩ :=
        sendLoop_spec sendFunc onlySendOnce po es s' fun e' h => hes e' (.tail _ h)
      refine ⟨x :: D, rest, by rw [h₁, hs', List.append_assoc, List.singleton_append],
        by rw [List.map_cons, List.cons_append, h₂, hx], ?_⟩
      rcases h₃ with ⟨hgo, hrest, hD⟩ | ⟨hgo, hD⟩
      · exact .inl ⟨hgo, hrest, List.forall_mem_cons.2 ⟨hstop, hD⟩⟩
      · exact .inr ⟨hgo, EndsAtStop.append ord (List.forall_mem_singleton.2 hstop) hD⟩
    rw [sendLoop]
    by_cases hsend : sendFunc s.attempts.length e = true
    · rw [if_pos hsend]
      by_cases hstop : onlySendOnce = true ∨ po = addressLength * 8
      · -- a successful send that stops the loop
        have hlast : StopsAfter ord onlySendOnce (e, true) := ⟨rfl, by rwa [he]⟩
        refine ⟨[(e, true)], es, ?_, rfl, .inr ⟨?_, [], (e, true), rfl, nofun, hlast⟩⟩ <;>
          rcases hstop with h | h <;> simp [h]
      · rw [not_or] at hstop
        rw [if_neg hstop.1, if_neg hstop.2]
        exact hnext (e, true) _ rfl (fun h => h.2.elim hstop.1 (he ▸ hstop.2)) rfl
    · rw [if_neg hsend]
      exact hnext (e, false) _ rfl (fun h => hsend (by simpa using h.1)) rfl

/-- Over bins in descending order, each peer of a bin at the bin's order, the consumer tries a
first part of the peers in the order the bins present them. Unless it ends at a stop, none of its
attempts is a stop, and it tried every peer or it stopped at a bin below the threshold, after a
successful send, every peer it did not try being below the threshold. -/
theorem feed_forward (sendFunc : Nat → Entry → Bool) (onlySendOnce : Bool)
    (lbPeers : Bin Entry → List Entry) (bt : Nat) :
    ∀ (L : List (Bin Entry)) (s : Forwarding), (L.map Bin.proximityOrder).Pairwise (· > ·) →
      (∀ B ∈ L, ∀ e ∈ lbPeers B, ord e = B.proximityOrder) →
      ∃ D rest,
        (feed (forwardConsumer sendFunc onlySendOnce lbPeers bt) L s).1.attempts =
          s.attempts ++ D ∧
        D.map Prod.fst ++ rest = L.flatMap lbPeers ∧
        (((∀ x ∈ D, ¬StopsAfter ord onlySendOnce x) ∧
            (rest = [] ∨ (0 < (feed (forwardConsumer sendFunc onlySendOnce lbPeers bt) L s).1.sent ∧
              ∀ e ∈ rest, ord e < bt))) ∨
          EndsAtStop ord onlySendOnce D)
  | [], s, _, _ => ⟨[], [], by simp, rfl, .inl ⟨nofun, .inl rfl⟩⟩
  | B :: L, s, hL, hB => by
    rw [List.map_cons, List.pairwise_cons, List.forall_mem_map] at hL
    have hBe := hB B (.head _)
    rw [feed_cons, List.flatMap_cons]
    dsimp only
    rw [forwardConsumer]
    by_cases hstop : B.proximityOrder < bt ∧ 0 < s.sent
    · -- a bin below the threshold after a successful send: no peer is tried
      simp only [if_pos hstop, Bool.false_eq_true, ↓reduceIte]
      refine ⟨[], lbPeers B ++ L.flatMap lbPeers, by simp, rfl, .inl ⟨nofun, .inr ⟨hstop.2,
        fun e he => ?_⟩⟩⟩
      rcases List.mem_append.1 he with he | he
      · rw [hBe e he]
        exact hstop.1
      · obtain ⟨B', hB', he'⟩ := List.mem_flatMap.1 he
        have := hL.1 B' hB'
        rw [hB B' (.tail _ hB') e he']
        omega
    · rw [if_neg hstop]
      obtain ⟨D₁, rest₁, h₁, h₂, h₃⟩ :=
        sendLoop_spec ord sendFunc onlySendOnce B.proximityOrder (lbPeers B) s hBe
      rcases h₃ with ⟨hgo, hrest, hD₁⟩ | ⟨hgo, hD₁⟩
      · -- the whole bin is tried, none a stop: on to the next bins
        rw [if_pos hgo]
        obtain ⟨D₂, rest₂, h₁', h₂', h₃'⟩ :=
          feed_forward sendFunc onlySendOnce lbPeers bt L _ hL.2 fun B' h => hB B' (.tail _ h)
        refine ⟨D₁ ++ D₂, rest₂, by rw [h₁', h₁, List.append_assoc], ?_, ?_⟩
        · rw [← h₂, hrest, List.append_nil, ← h₂', List.map_append, List.append_assoc]
        · rcases h₃' with ⟨hD₂, hr⟩ | hD₂
          · exact .inl ⟨fun x hx => (List.mem_append.1 hx).elim (hD₁ x) (hD₂ x), hr⟩
          · exact .inr (EndsAtStop.append ord hD₁ hD₂)
      · -- a stop within the bin
        rw [if_neg (by simp [hgo])]
        exact ⟨D₁, rest₁ ++ L.flatMap lbPeers, h₁, by rw [← List.append_assoc, h₂], .inr hD₁⟩

end Stops

/-! ## The forwarding law -/

/-- The bits of a byte list are eight per byte. -/
theorem length_bytesBits : ∀ bs : List UInt8, (bytesBits bs).length = 8 * bs.length
  | [] => rfl
  | b :: bs => by
    show ([7, 6, 5, 4, 3, 2, 1, 0].map b.toNat.testBit ++ bytesBits bs).length = _
    rw [List.length_append, length_bytesBits bs, List.length_cons]
    simp only [List.length_map, List.length_cons, List.length_nil]
    omega

/-- `DefaultPof(max)` from bit 0 is the common-prefix length capped at `max`. -/
theorem defaultPof_zero (max : Nat) (a b : Bits) :
    (defaultPof max a b 0).1 = min (cpl a b) max := by
  simp only [defaultPof, proximityOrder_of_le (Nat.zero_le (cpl a b))]
  split <;> omega

/-- The threshold arithmetic of `forward`, `po` being the proximity order of `to` to the base
address capped at the depth `d`, and `r` the luminosity radius: below both bounds the threshold is
raised past `po` for one send only, else it is the smaller bound. -/
theorem threshold_cases (po d r : Nat) :
    let b := if min po d > r then r else min po d
    (po < min d r →
      (if decide (b < r ∧ b < d) then b + 1 else b) = po + 1 ∧ decide (b < r ∧ b < d) = true) ∧
    (min d r ≤ po →
      (if decide (b < r ∧ b < d) then b + 1 else b) = min d r ∧ decide (b < r ∧ b < d) = false) := by
  have hb : (if min po d > r then r else min po d) = min po (min d r) := by
    split <;> omega
  have hq : min d r ≤ d ∧ min d r ≤ r ∧ (min d r = d ∨ min d r = r) :=
    ⟨Nat.min_le_left _ _, Nat.min_le_right _ _, min_choice _ _⟩
  have hm : min po (min d r) ≤ po ∧ min po (min d r) ≤ min d r ∧
      (min po (min d r) = po ∨ min po (min d r) = min d r) :=
    ⟨Nat.min_le_left _ _, Nat.min_le_right _ _, min_choice _ _⟩
  dsimp only
  rw [hb]
  generalize min po (min d r) = m at *
  generalize min d r = q at *
  by_cases hc : m < r ∧ m < d
  · simp only [hc, decide_True, ↓reduceIte, and_true, Bool.true_eq_false, and_false]
    omega
  · simp only [hc, decide_False, Bool.false_eq_true, ↓reduceIte, and_false, and_true]
    omega

/-- The peers of a valid conns pot, bin by bin from a full address `pivot` in descending order,
each bin's in the load balancer's order: each at its bin's order, every connected peer once,
nearest to `pivot` first. -/
theorem desc_peers {tc : Pot Entry} (hvc : Valid tc) {lbPeers : Bin Entry → List Entry}
    (hlb : ∀ B, (lbPeers B).Perm B.valIterator.vals) {pivot : Bits} (hpivot : pivot.length = 256) :
    ((binsOf pivot Network.pof 0 tc).reverse.map Bin.proximityOrder).Pairwise (· > ·) ∧
    (∀ B ∈ (binsOf pivot Network.pof 0 tc).reverse, ∀ e ∈ lbPeers B,
      cpl (address e).bits pivot = B.proximityOrder) ∧
    ((binsOf pivot Network.pof 0 tc).reverse.flatMap lbPeers).Perm (vals tc) ∧
    ((binsOf pivot Network.pof 0 tc).reverse.flatMap lbPeers).Pairwise
      fun a b => cpl (address b).bits pivot ≤ cpl (address a).bits pivot := by
  have hg : Groups (⟨pivot, hpivot⟩ : Key 256) 0 (binsOf pivot Network.pof 0 tc) (vals tc) :=
    groups_of_valid _ 0 hvc
  have hdesc : ((binsOf pivot Network.pof 0 tc).reverse.map Bin.proximityOrder).Pairwise (· > ·) := by
    rw [List.map_reverse, List.pairwise_reverse]
    exact hg.sorted
  have hord : ∀ B ∈ (binsOf pivot Network.pof 0 tc).reverse, ∀ e ∈ lbPeers B,
      cpl (address e).bits pivot = B.proximityOrder := fun B hB e he =>
    hg.cpl_eq B (List.mem_reverse.1 hB) e ((hlb B).subset he)
  refine ⟨hdesc, hord, ?_, ?_⟩
  · have h := hg.perm
    rw [List.filter_eq_self.2 fun _ _ => by simp] at h
    exact (List.Perm.flatMap_left _ fun B _ => hlb B).trans
      ((List.Perm.flatMap_right _ (List.reverse_perm _)).trans h)
  · -- one order within a bin, and descending orders from bin to bin
    refine List.pairwise_flatMap.2 ⟨fun B hB => List.pairwise_of_forall_mem_list
      fun a ha b hb => by rw [hord B hB a ha, hord B hB b hb], ?_⟩
    exact (List.pairwise_map.1 hdesc).imp_of_mem fun hB hB' hgt a ha b hb => by
      rw [hord _ hB a ha, hord _ hB' b hb]
      exact Nat.le_of_lt hgt

/-- On a destination of at most `addressLength` bytes, `forward` on a conns pot returns what the
descending `EachBin` over the conns from `to` leaves: with the threshold one past the proximity
order of `to` to the base address and one send only, when that order is below both the depth and
the luminosity radius; else with the smaller of these two as threshold. -/
theorem forward_some (digest : Message → List UInt8) (p : Pss) (tc : Pot Entry)
    (lbPeers : Bin Entry → List Entry) (sendFunc : Nat → Entry → Bool) (msg : Message)
    (now : Time) (hlen : msg.toAddr.length ≤ addressLength) :
    ∃ bt once,
      (cpl (bytesBits (forwardTo msg)) (bytesBits p.baseAddr) <
          min p.neighbourhoodDepth (msg.toAddr.length * 8) →
        bt = cpl (bytesBits (forwardTo msg)) (bytesBits p.baseAddr) + 1 ∧ once = true) ∧
      (min p.neighbourhoodDepth (msg.toAddr.length * 8) ≤
          cpl (bytesBits (forwardTo msg)) (bytesBits p.baseAddr) →
        bt = min p.neighbourhoodDepth (msg.toAddr.length * 8) ∧ once = false) ∧
      forward digest p (some tc) lbPeers sendFunc msg now =
        let s := EachBin tc (bytesBits (forwardTo msg)) Network.pof 0
          (forwardConsumer sendFunc once lbPeers bt) false ⟨0, []⟩
        .ok (p.addFwdCache digest msg now, s.attempts,
          if s.sent = 0 then .error "unable to forward to any peers" else .ok ()) := by
  have hb0 := defaultPof_zero p.neighbourhoodDepth (bytesBits (forwardTo msg)) (bytesBits p.baseAddr)
  have h := threshold_cases (cpl (bytesBits (forwardTo msg)) (bytesBits p.baseAddr))
    p.neighbourhoodDepth (msg.toAddr.length * 8)
  rw [← hb0] at h
  exact ⟨_, _, h.1, h.2, by rw [forward, if_neg (Nat.not_lt.2 hlen)]; rfl⟩

/-- The forwarding law. On a valid conns pot, with a load balancer that presents each bin's peers
in some order, `forward` of a message with a destination of at most an address caches its digest
and returns the attempts `A` and the error `r`: each attempt's outcome is that of the send; each
connected peer is tried at most once, nearest to `to` first; `r` is an error exactly when no send
succeeded, and then every peer was tried; when the proximity of `to` to the base lies below the
capped threshold, every attempt but the last failed; otherwise every peer at least as close to
`to` as the threshold was tried, unless the last attempt succeeded on a peer at order 256 from
`to`, the zero-padded destination. -/
theorem forward_law (digest : Message → List UInt8) (p : Pss) {tc : Pot Entry} (hvc : Valid tc)
    (lbPeers : Bin Entry → List Entry) (hlb : ∀ B, (lbPeers B).Perm B.valIterator.vals)
    (sendFunc : Nat → Entry → Bool) (msg : Message) (now : Time)
    (hlen : msg.toAddr.length ≤ addressLength) :
    ∃ A r, forward digest p (some tc) lbPeers sendFunc msg now =
      .ok (p.addFwdCache digest msg now, A, r) ∧
      (∀ i (h : i < A.length), A[i].2 = sendFunc i A[i].1) ∧
      ((A.map Prod.fst).Nodup ∧ (∀ x ∈ A, x.1 ∈ vals tc) ∧
        (A.map fun x => cpl (address x.1).bits (bytesBits (forwardTo msg))).Pairwise (· ≥ ·)) ∧
      ((r = .error "unable to forward to any peers" ↔ ∀ x ∈ A, x.2 = false) ∧
        ((∀ x ∈ A, x.2 = false) → (A.map Prod.fst).Perm (vals tc))) ∧
      (cpl (bytesBits (forwardTo msg)) (bytesBits p.baseAddr) <
          min p.neighbourhoodDepth (msg.toAddr.length * 8) → ∀ x ∈ A.dropLast, x.2 = false) ∧
      (min p.neighbourhoodDepth (msg.toAddr.length * 8) ≤
          cpl (bytesBits (forwardTo msg)) (bytesBits p.baseAddr) →
        ∀ e ∈ vals tc, min p.neighbourhoodDepth (msg.toAddr.length * 8) ≤
            cpl (address e).bits (bytesBits (forwardTo msg)) →
          e ∈ A.map Prod.fst ∨ ∃ x, A.getLast? = some x ∧ x.2 = true ∧
            cpl (address x.1).bits (bytesBits (forwardTo msg)) = addressLength * 8) := by
  have hto : (bytesBits (forwardTo msg)).length = 256 := by
    rw [length_bytesBits, forwardTo, List.length_append, List.length_replicate]
    unfold addressLength at hlen ⊢
    omega
  let ord : Entry → Nat := fun e => cpl (address e).bits (bytesBits (forwardTo msg))
  obtain ⟨hdesc, hord, hperm, hsorted⟩ := desc_peers hvc hlb hto
  have hvals : (vals tc).Nodup := (Valid.nodup hvc).of_map _
  set L := binsOf (bytesBits (forwardTo msg)) Network.pof 0 tc
  -- what the consumer did, and that `forward` returns it
  obtain ⟨bt, once, hlt, hge, hfwd⟩ := forward_some digest p tc lbPeers sendFunc msg now hlen
  rw [eachBin_desc_of_valid hvc] at hfwd
  obtain ⟨D, rest, hD, hsplit, hstop⟩ :=
    feed_forward ord sendFunc once lbPeers bt L.reverse ⟨0, []⟩ hdesc hord
  have htracks : Tracks sendFunc
      (feed (forwardConsumer sendFunc once lbPeers bt) L.reverse ⟨0, []⟩).1 :=
    feed_inv (fun B _ s hs => forwardConsumer_tracks lbPeers bt B s hs) ⟨rfl, nofun⟩
  set S := (feed (forwardConsumer sendFunc once lbPeers bt) L.reverse ⟨0, []⟩).1
  rw [List.nil_append] at hD
  obtain ⟨hsent, hout⟩ := htracks
  rw [hD] at hsent hout
  have hsub : (D.map Prod.fst).Sublist (L.reverse.flatMap lbPeers) :=
    hsplit ▸ List.sublist_append_left _ _
  have hnone : S.sent = 0 ↔ ∀ x ∈ D, x.2 = false := by
    rw [hsent, List.countP_eq_zero]
    simp only [Bool.not_eq_true]
  refine ⟨D, _, by rw [hfwd, ← hD], hout, ?_, ?_, ?_, ?_⟩
  · -- (i) each connected peer at most once, nearest first
    have hD := List.pairwise_map.1 (hsorted.sublist hsub)
    exact ⟨(hperm.nodup_iff.2 hvals).sublist hsub,
      fun x hx => hperm.subset (hsub.subset (List.mem_map_of_mem _ hx)), List.pairwise_map.2 hD⟩
  · -- (ii) an error exactly when no send succeeded, and then after trying every peer
    refine ⟨⟨fun h => hnone.1 (by_contra fun hc => by rw [if_neg hc] at h; cases h),
      fun h => by rw [if_pos (hnone.2 h)]⟩, fun h => ?_⟩
    rcases hstop with ⟨-, rfl | ⟨hpos, -⟩⟩ | ⟨D', x, rfl, -, hx, -⟩
    · rw [List.append_nil] at hsplit
      rw [hsplit]
      exact hperm
    · exact absurd (hnone.2 h) (Nat.pos_iff_ne_zero.1 hpos)
    · exact absurd (h x (List.mem_append_right _ (.head _))) (by rw [hx]; decide)
  · -- (iii) one send only: every attempt before the last failed
    intro hpi x hx
    have hfalse : ∀ y, ¬StopsAfter ord once y → y.2 = false := fun y hy => by
      cases h : y.2
      · rfl
      · exact absurd ⟨h, .inl (hlt hpi).2⟩ hy
    rcases hstop with ⟨hno, -⟩ | ⟨D', y, rfl, hD', -⟩
    · exact hfalse x (hno x (List.dropLast_subset _ hx))
    · rw [List.dropLast_concat] at hx
      exact hfalse x (hD' x hx)
  · -- (iv) every peer as close as the capped threshold, unless stopped at `to` itself
    intro hpi e he hle
    obtain ⟨hbt, honce⟩ := hge hpi
    rcases List.mem_append.1 (hsplit ▸ hperm.mem_iff.2 he : e ∈ D.map Prod.fst ++ rest) with h | h
    · exact .inl h
    · rcases hstop with ⟨-, rfl | ⟨-, hlow⟩⟩ | ⟨D', x, rfl, -, hx, hx'⟩
      · cases h
      · exact absurd (by rw [← hbt]; exact hlow e h) (Nat.not_lt.2 hle)
      · refine .inr ⟨x, List.getLast?_concat _, hx, hx'.resolve_left ?_⟩
        rw [honce]
        decide

/-- A one-byte destination forwarded over two connected peers, every send succeeding. -/
theorem forward_law_two :
    let p := New (List.replicate 32 255) rfl 0 (fun _ => none) (fun _ => none) NewParams
    let msg : Message := ⟨[0], ⟨false, false⟩, 0, ⟨[0, 0, 0, 0], rfl⟩, []⟩
    ∃ tc : Pot Entry, Valid tc ∧ ∃ A r,
      forward (fun _ => []) p (some tc) (fun B => B.valIterator.vals) (fun _ _ => true) msg
          ⟨0, 0⟩ = .ok (p.addFwdCache (fun _ => []) msg ⟨0, 0⟩, A, r) ∧
      (A.map Prod.fst).Nodup ∧ ∀ x ∈ A, x.1 ∈ vals tc := by
  intro p msg
  have ht := add_valid (add_valid (.inl rfl) (⟨⟨zeroKey, [], []⟩, none, 0, 0⟩ : Entry))
    (⟨⟨farKey, [], []⟩, none, 0, 0⟩ : Entry)
  obtain ⟨A, r, h, -, ⟨hnd, hmem, -⟩, -⟩ := forward_law (fun _ => []) p ht
    (fun B => B.valIterator.vals) (fun _ => List.Perm.refl _) (fun _ _ => true) msg ⟨0, 0⟩
    (by decide)
  exact ⟨_, ht, A, r, h, hnd, hmem⟩

set_option maxRecDepth 10000 in
/-- A one-byte destination whose zero padding is the address of a connected peer, on a node of
depth 0: the successful send to that peer stops `forward` before it tries the other connected
peer, although the destination is not a full address and that peer is as close to `to` as the
capped threshold. -/
theorem forward_stops_partial :
    ∃ tc : Pot Entry,
      let p := New (List.replicate 32 255) rfl 0 (fun _ => none) (fun _ => none) NewParams
      let msg : Message := ⟨[0], ⟨false, false⟩, 0, ⟨[0, 0, 0, 0], rfl⟩, []⟩
      Valid tc ∧ (⟨⟨farKey, [], []⟩, none, 0, 0⟩ : Entry) ∈ vals tc ∧
      msg.toAddr.length < addressLength ∧
      min p.neighbourhoodDepth (msg.toAddr.length * 8) ≤
        cpl (bytesBits (forwardTo msg)) (bytesBits p.baseAddr) ∧
      min p.neighbourhoodDepth (msg.toAddr.length * 8) ≤
        cpl farKey.bits (bytesBits (forwardTo msg)) ∧
      (forward (fun _ => []) p (some tc) (fun B => B.valIterator.vals) (fun _ _ => true)
          msg ⟨0, 0⟩).toOption.map (·.2.1) = some [(⟨⟨zeroKey, [], []⟩, none, 0, 0⟩, true)] :=
  ⟨_, add_valid (add_valid (.inl rfl) (⟨⟨zeroKey, [], []⟩, none, 0, 0⟩ : Entry))
    (⟨⟨farKey, [], []⟩, none, 0, 0⟩ : Entry), by decide, by decide, by decide, by decide,
    by decide⟩

end Swarm.Pss
