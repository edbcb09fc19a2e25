import Swarm.Pss.Forward

/-!
# A pss node over a run of events

A node sees messages arrive from its peers (`handle`, which hands them to `handlePssMsg`), sends
messages for its clients (`SendRaw`, and `send` under `SendSym` and `SendAsym`), forwards what its
outbox holds (`forward`), collects its forward cache when the ticker fires (`gc`), and has handlers
registered and deregistered. This module makes these the events of one state machine (`step`,
`run`), and proves the safety property the forward cache exists for, within its lifetime: over any
run whose clock never goes back, in any interleaving of events, two receipts of one digest that
are both handled (handed to a handler or enqueued) lie at least `CacheTTL` apart, and a message
this node sent raw is not handled when it comes back within `CacheTTL` (`run_handles_once`,
`sendRaw_not_handled`). Both rest on `TTLSet.Keeps`: a digest added at `t₀` is hit until
`t₀ + CacheTTL`, whatever the events in between.

The digest is the function `digest`, as in `handlePssMsg`; the crypto of `send` and the key store
are outside the sources, and so are the key-store lookups of `SendSym` and `SendAsym`.
-/

namespace Swarm.Pss

open Pot
open Network (Entry)

/-- `validateAddress`: the error returned for a destination longer than an address. -/
def validateAddress (addr : List UInt8) : Option String :=
  if addr.length > addressLength then some "address too long" else none

/-- `uint32(x)`: the low 32 bits, as a message's expiry holds them. -/
def toUInt32 (x : Int) : Nat := (x % 2 ^ 32).toNat

/-- The crypto `send` calls, outside the sources: whether a public key unmarshals, and `Wrap` of
a payload for a receiver's public key (`asymmetric`) or for a symmetric key, which returns the
envelope or an error text. -/
structure Crypto where
  unmarshalPublicKey : List UInt8 → Bool
  wrap : List UInt8 → Bool → List UInt8 → Except String (List UInt8)

section Send

variable (digest : Message → List UInt8)

/-- The message `SendRaw` builds at clock reading `now`: raw, to `address`, expiring `messageTTL`
from now, in the 32 bits of its unix time. -/
def rawMessage (address : List UInt8) (topic : Topic) (msg : List UInt8) (messageTTL : Int)
    (now : Time) : Message :=
  ⟨address, ⟨true, false⟩, toUInt32 (now.Add messageTTL).Unix, topic, msg⟩

/-- `SendRaw` at clock reading `now`: the raw message is cached and enqueued. The second
component is the error returned. It does not read `AllowRaw`, although its doc comment says that
it fails when raw messages are not allowed. -/
def SendRaw (p : Pss) (address : List UInt8) (topic : Topic) (msg : List UInt8)
    (messageTTL : Int) (now : Time) : Pss × Option String :=
  match validateAddress address with
  | some err => (p, some err)
  | none =>
    let pssMsg := rawMessage address topic msg messageTTL now
    ((p.addFwdCache digest pssMsg now).enqueue pssMsg, none)

/-- `send` at clock reading `now`: the payload, wrapped for the key, is enqueued in a message
flagged symmetric unless `asymmetric`, expiring `msgTTL` from now. Unlike `SendRaw`, `send` does
not cache the message. The second component is the error returned. -/
def send (p : Pss) (crypto : Crypto) (to' : List UInt8) (topic : Topic) (msg : List UInt8)
    (asymmetric : Bool) (key : List UInt8) (now : Time) : Pss × Option String :=
  if key = [] then (p, some "Zero length key passed to pss send")
  else if asymmetric ∧ !crypto.unmarshalPublicKey key then
    (p, some ("Cannot unmarshal pubkey: " ++ Network.Kademlia.hexBits (bytesBits key)))
  else
    match crypto.wrap msg asymmetric key with
    | .error err => (p, some ("failed to perform message encapsulation and encryption: " ++ err))
    | .ok envelope =>
      (p.enqueue ⟨to', ⟨false, !asymmetric⟩, toUInt32 (now.Add p.msgTTL).Unix, topic, envelope⟩,
        none)

end Send

/-! ## Events and runs -/

/-- What happens at a node, at clock reading `now` when it reads the clock: a message arrives from
a peer, a client sends a raw or a wrapped message, the outbox forwards a message over the conns
`conns`, the ticker collects the forward cache, or a handler is registered or deregistered. -/
inductive Event where
  | receive (msg : Message) (now : Time)
  | sendRaw (address : List UInt8) (topic : Topic) (msg : List UInt8) (messageTTL : Int)
      (now : Time)
  | send (crypto : Crypto) (to' : List UInt8) (topic : Topic) (msg : List UInt8)
      (asymmetric : Bool) (key : List UInt8) (now : Time)
  | forward (msg : Message) (conns : Option (Pot Entry)) (lbPeers : Bin Entry → List Entry)
      (sendFunc : Nat → Entry → Bool) (now : Time)
  | gc (now : Time)
  | register (topic : Topic) (hndlr : Handler)
  | deregister (topic : Topic) (hndlr : Handler)

/-- The monotonic reading of the clock at an event that reads it. -/
def Event.clock : Event → Option Int
  | .receive _ now | .sendRaw _ _ _ _ now | .send _ _ _ _ _ _ now | .forward _ _ _ _ now
  | .gc now => some now.mono
  | .register .. | .deregister .. => none

/-- What an event shows: the handler invocations, and the messages it enqueued. -/
abbrev Output := List Invocation × List Message

section Run

variable (digest : Message → List UInt8)

/-- The state after an event, with the handler invocations it made; a panic has none. The
ticker's callback is `forwardCache.GC()`. -/
def step (p : Pss) : Event → Except String (Pss × List Invocation)
  | .receive msg now => handlePssMsg digest p msg now
  | .sendRaw address topic msg messageTTL now =>
    pure ((SendRaw digest p address topic msg messageTTL now).1, [])
  | .send crypto to' topic msg asymmetric key now =>
    pure ((send p crypto to' topic msg asymmetric key now).1, [])
  | .forward msg conns lbPeers sendFunc now =>
    (fun r => (r.1, [])) <$> forward digest p conns lbPeers sendFunc msg now
  | .gc now => pure ({ p with forwardCache := p.forwardCache.GC now.mono }, [])
  | .register topic hndlr => pure ({ p with registry := p.registry.register topic hndlr }, [])
  | .deregister topic hndlr =>
    pure ({ p with registry := p.registry.deregister topic hndlr }, [])

/-- The events in turn, with what each shows; a panic ends the run. -/
def run (p : Pss) : List Event → Except String (Pss × List Output)
  | [] => pure (p, [])
  | e :: es => do
    let (p₁, inv) ← step digest p e
    let (p', outs) ← run p₁ es
    pure (p', (inv, p₁.outbox.drop p.outbox.length) :: outs)

/-- The received messages that were handled, that invoked a handler or were enqueued: each
digest with the monotonic reading at which it arrived. -/
def handled : List Event → List Output → List (List UInt8 × Int)
  | .receive msg now :: es, out :: outs =>
    (if out = ([], []) then [] else [(digest msg, now.mono)]) ++ handled es outs
  | _ :: es, _ :: outs => handled es outs
  | _, _ => []

end Run

/-! ## The forward cache over time -/

namespace TTLSet

@[simp] theorem Add_entryTTL (s : TTLSet) (key : List UInt8) (now : Int) :
    (s.Add key now).entryTTL = s.entryTTL := rfl

@[simp] theorem GC_entryTTL (s : TTLSet) (now : Int) : (s.GC now).entryTTL = s.entryTTL := rfl

/-- `key` was added at `t₀`, no later than `now`, and the set hits it from `now` until
`t₀ + entryTTL`: its entry expires then or later, or `GC` dropped it once that had passed. -/
def Keeps (s : TTLSet) (key : List UInt8) (t₀ now : Int) : Prop :=
  t₀ ≤ now ∧ match s.expiresAt key with
    | some e => t₀ + s.entryTTL ≤ e
    | none => t₀ + s.entryTTL ≤ now

variable {s : TTLSet} {key : List UInt8} {t₀ now : Int}

/-- A key just added is kept from its reading on. -/
theorem keeps_add (s : TTLSet) (key : List UInt8) (now : Int) : (s.Add key now).Keeps key now now :=
  ⟨le_rfl, by simp [Add, Keeps]⟩

/-- A kept key is hit at every reading from `now` until it expires. -/
theorem Keeps.has (h : s.Keeps key t₀ now) {t : Int} (ht : now ≤ t) (hlt : t < t₀ + s.entryTTL) :
    s.Has key t = true := by
  obtain ⟨-, h⟩ := h
  unfold Has
  cases hk : s.expiresAt key <;> simp only [hk, decide_eq_true_eq] at h ⊢ <;> omega

/-- A key kept at one reading is kept at every later one. -/
theorem Keeps.later (h : s.Keeps key t₀ now) {now' : Int} (hle : now ≤ now') :
    s.Keeps key t₀ now' := by
  obtain ⟨h0, h⟩ := h
  refine ⟨h0.trans hle, ?_⟩
  cases hk : s.expiresAt key <;> simp only [hk] at h ⊢ <;> omega

/-- A later `Add`, of any key, keeps what was kept. -/
theorem Keeps.add (h : s.Keeps key t₀ now) (key' : List UInt8) {now' : Int} (hle : now ≤ now') :
    (s.Add key' now').Keeps key t₀ now' := by
  obtain ⟨h0, h⟩ := h.later hle
  refine ⟨h0, ?_⟩
  by_cases hk : key = key'
  · subst hk
    simp only [Add, Function.update_same, Add_entryTTL]
    omega
  · simpa [Add, Function.update_noteq hk] using h

/-- A later `GC` keeps what was kept: it drops an entry only once it has expired. -/
theorem Keeps.gc (h : s.Keeps key t₀ now) {g : Int} (hle : now ≤ g) : (s.GC g).Keeps key t₀ g := by
  obtain ⟨h0, h⟩ := h.later hle
  refine ⟨h0, ?_⟩
  show match (s.expiresAt key).filter (fun e => !decide (e < g)) with
    | some e => t₀ + s.entryTTL ≤ e
    | none => t₀ + s.entryTTL ≤ g
  cases hk : s.expiresAt key with
  | none => simpa [hk] using h
  | some e =>
    simp only [hk] at h
    by_cases he : e < g <;> simp [Option.filter, he] <;> omega

end TTLSet

/-! ## One event -/

variable {digest : Message → List UInt8}

/-- `process` enqueues the message or leaves the node as it is. -/
theorem process_state {p p' : Pss} {msg : Message} {raw prox : Bool} {inv : List Invocation}
    (h : p.process msg raw prox = .ok (p', inv)) : p' = p ∨ p' = p.enqueue msg := by
  unfold process at h
  cases raw <;> simp only [Bool.false_eq_true, ite_false, ite_true, pure_bind] at h
  · cases hk : keyFunc p msg.flags.symmetric msg with
    | none => simp [hk] at h; cases h
    | some d =>
      simp only [hk, pure_bind] at h
      split at h <;> cases h
      · exact .inr rfl
      · exact .inl rfl
  · split at h <;> cases h
    · exact .inr rfl
    · exact .inl rfl

/-- A received message leaves the node as it was, or it was fresh and its digest is added to the
cache at the reading it arrived at. -/
theorem handlePssMsg_cases {p p' : Pss} {msg : Message} {now : Time} {inv : List Invocation}
    (h : handlePssMsg digest p msg now = .ok (p', inv)) :
    (p' = p ∧ inv = []) ∨ (p.checkFwdCache digest msg now = false ∧
      p'.forwardCache = p.forwardCache.Add (digest msg) now.mono) := by
  by_cases hexp : (msg.expire : Int) < now.Unix
  · simp only [handlePssMsg, hexp, if_true] at h
    cases h
    exact .inl ⟨rfl, rfl⟩
  cases hnew : p.checkFwdCache digest msg now
  · refine .inr ⟨rfl, ?_⟩
    have hq : ∀ {q : Pss}, q = p.addFwdCache digest msg now ∨
        q = (p.addFwdCache digest msg now).enqueue msg →
        q.forwardCache = p.forwardCache.Add (digest msg) now.mono := by
      rintro q (rfl | rfl) <;> rfl
    rw [handlePssMsg_fresh digest p msg now (Int.not_lt.1 hexp) hnew] at h
    split at h
    · cases h
      exact hq (.inl rfl)
    · obtain ⟨b, hb, h⟩ := Network.bind_eq_ok h
      cases b
      · cases h
        exact hq (.inr rfl)
      · simp only [Bool.not_true, Bool.false_eq_true, ite_false] at h
        cases hp : (p.addFwdCache digest msg now).process msg msg.flags.raw
            (p.isProxTopicHandlerCaps msg.topic).1 with
        | error e =>
          rw [hp] at h
          cases h
          exact hq (.inr rfl)
        | ok r =>
          rw [hp] at h
          cases h
          exact hq (process_state hp)
  · simp only [handlePssMsg, hexp, hnew, if_false, if_true] at h
    cases h
    exact .inl ⟨rfl, rfl⟩

/-- `send` leaves the forward cache as it was. -/
theorem send_forwardCache (p : Pss) (crypto : Crypto) (to' : List UInt8) (topic : Topic)
    (msg : List UInt8) (asymmetric : Bool) (key : List UInt8) (now : Time) :
    (send p crypto to' topic msg asymmetric key now).1.forwardCache = p.forwardCache := by
  unfold send
  split
  · rfl
  · split
    · rfl
    · split <;> rfl

/-- An event leaves the forward cache as it was, or adds a digest to it or collects it, at its
own clock reading. -/
theorem step_cache {p p' : Pss} {e : Event} {inv : List Invocation}
    (h : step digest p e = .ok (p', inv)) :
    p'.forwardCache = p.forwardCache ∨ ∃ t ∈ e.clock,
      (∃ key, p'.forwardCache = p.forwardCache.Add key t) ∨ p'.forwardCache = p.forwardCache.GC t := by
  cases e with
  | receive msg now =>
    rcases handlePssMsg_cases h with ⟨rfl, -⟩ | ⟨-, hc⟩
    · exact .inl rfl
    · exact .inr ⟨_, rfl, .inl ⟨_, hc⟩⟩
  | sendRaw address topic msg messageTTL now =>
    cases h
    unfold SendRaw
    split
    · exact .inl rfl
    · exact .inr ⟨_, rfl, .inl ⟨_, rfl⟩⟩
  | send crypto to' topic msg asymmetric key now =>
    cases h
    exact .inl (send_forwardCache ..)
  | forward msg conns lbPeers sendFunc now =>
    simp only [step, forward] at h
    split at h
    · cases h
    · cases h
      exact .inr ⟨_, rfl, .inl ⟨_, rfl⟩⟩
  | gc now =>
    cases h
    exact .inr ⟨_, rfl, .inr rfl⟩
  | register | deregister =>
    cases h
    exact .inl rfl

/-- An event keeps the lifetime of the cache's entries. -/
theorem step_entryTTL {p p' : Pss} {e : Event} {inv : List Invocation}
    (h : step digest p e = .ok (p', inv)) :
    p'.forwardCache.entryTTL = p.forwardCache.entryTTL := by
  rcases step_cache h with hc | ⟨t, -, ⟨key, hc⟩ | hc⟩ <;> rw [hc] <;> rfl

/-- An event at or after `now` keeps what the cache kept. -/
theorem step_keeps {p p' : Pss} {e : Event} {inv : List Invocation}
    (h : step digest p e = .ok (p', inv)) {key : List UInt8} {t₀ now : Int}
    (hk : p.forwardCache.Keeps key t₀ now) (hle : ∀ t ∈ e.clock, now ≤ t) :
    p'.forwardCache.Keeps key t₀ (e.clock.getD now) := by
  rcases step_cache h with hc | ⟨t, ht, ⟨key', hc⟩ | hc⟩ <;> rw [hc]
  · cases hcl : e.clock
    · exact hk
    · exact hk.later (hle _ hcl)
  · rw [ht]
    exact hk.add key' (hle t ht)
  · rw [ht]
    exact hk.gc (hle t ht)

/-! ## Runs -/

/-- A run that returns took its first event's step and then ran the rest. -/
theorem run_cons_ok {p p' : Pss} {e : Event} {es : List Event} {outs : List Output}
    (h : run digest p (e :: es) = .ok (p', outs)) :
    ∃ p₁ inv outs', step digest p e = .ok (p₁, inv) ∧ run digest p₁ es = .ok (p', outs') ∧
      outs = (inv, p₁.outbox.drop p.outbox.length) :: outs' := by
  obtain ⟨⟨p₁, inv⟩, h₁, h⟩ := Network.bind_eq_ok h
  obtain ⟨⟨p'', outs'⟩, h₂, h⟩ := Network.bind_eq_ok h
  cases h
  exact ⟨p₁, inv, outs', h₁, h₂, rfl⟩

/-- A run that starts with a step that returns goes on from the state the step leaves, its outputs
led by that step's. -/
theorem run_cons_of_step {p p₁ : Pss} {e : Event} {inv : List Invocation}
    (h : step digest p e = .ok (p₁, inv)) (es : List Event) :
    run digest p (e :: es) =
      (run digest p₁ es >>= fun r => pure (r.1, (inv, p₁.outbox.drop p.outbox.length) :: r.2)) := by
  simp only [run, h]
  rfl

/-- A run of two lists of events that returns is the run of the first and then of the second,
with one output per event of the first. -/
theorem run_append_ok {p p' : Pss} {es₁ es₂ : List Event} {outs : List Output}
    (h : run digest p (es₁ ++ es₂) = .ok (p', outs)) :
    ∃ p₁ outs₁ outs₂, run digest p es₁ = .ok (p₁, outs₁) ∧ run digest p₁ es₂ = .ok (p', outs₂) ∧
      outs = outs₁ ++ outs₂ ∧ outs₁.length = es₁.length := by
  induction es₁ generalizing p outs with
  | nil => exact ⟨p, [], outs, rfl, h, rfl, rfl⟩
  | cons e es₁ ih =>
    obtain ⟨p₁, inv, outs', h₁, h₂, rfl⟩ := run_cons_ok h
    obtain ⟨p₂, outs₁, outs₂, h₃, h₄, rfl, hlen⟩ := ih h₂
    refine ⟨p₂, _ :: outs₁, outs₂, ?_, h₄, rfl, by simp [hlen]⟩
    rw [run_cons_of_step h₁, h₃]
    rfl

/-- A run keeps the lifetime of the cache's entries. -/
theorem run_entryTTL {p p' : Pss} {es : List Event} {outs : List Output}
    (h : run digest p es = .ok (p', outs)) :
    p'.forwardCache.entryTTL = p.forwardCache.entryTTL := by
  induction es generalizing p outs with
  | nil =>
    cases h
    rfl
  | cons e es ih =>
    obtain ⟨p₁, inv, outs', h₁, h₂, rfl⟩ := run_cons_ok h
    rw [ih h₂, step_entryTTL h₁]

/-- A received message that was handled was fresh: its digest is added to the cache at the reading
it arrived at. -/
theorem step_receive_handled {p p₁ : Pss} {msg : Message} {now : Time} {inv : List Invocation}
    (h : step digest p (.receive msg now) = .ok (p₁, inv))
    (hout : (inv, p₁.outbox.drop p.outbox.length) ≠ ([], [])) :
    p.checkFwdCache digest msg now = false ∧
      p₁.forwardCache = p.forwardCache.Add (digest msg) now.mono := by
  rcases handlePssMsg_cases h with ⟨rfl, rfl⟩ | hfresh
  · simp at hout
  · exact hfresh

/-- Over a run whose clock readings are at least `now` and never go back, a digest the cache keeps
from `now` is handled only once it has expired, and the cache keeps it at the end. -/
theorem run_keeps {p p' : Pss} {es : List Event} {outs : List Output}
    (h : run digest p es = .ok (p', outs)) {key : List UInt8} {t₀ now : Int}
    (hk : p.forwardCache.Keeps key t₀ now) (hle : ∀ t ∈ es.filterMap Event.clock, now ≤ t)
    (hmono : (es.filterMap Event.clock).Pairwise (· ≤ ·)) :
    (∀ a ∈ handled digest es outs, a.1 = key → t₀ + p.forwardCache.entryTTL ≤ a.2) ∧
      ∀ t, now ≤ t → (∀ t' ∈ es.filterMap Event.clock, t' ≤ t) →
        p'.forwardCache.Keeps key t₀ t := by
  induction es generalizing p outs now with
  | nil =>
    cases h
    exact ⟨fun _ h => absurd h (List.not_mem_nil _), fun t ht _ => hk.later ht⟩
  | cons e es ih =>
    obtain ⟨p₁, inv, outs', h₁, h₂, rfl⟩ := run_cons_ok h
    have hle₁ : ∀ t ∈ e.clock, now ≤ t := fun t ht =>
      hle t (by simp [List.filterMap_cons, Option.mem_def.1 ht])
    have hk₁ := step_keeps h₁ hk hle₁
    have hrest : ∀ t ∈ es.filterMap Event.clock, e.clock.getD now ≤ t := by
      intro t ht
      cases hc : e.clock with
      | none => exact hle t (by simpa [List.filterMap_cons, hc] using ht)
      | some t₁ =>
        simp only [List.filterMap_cons, hc, List.pairwise_cons] at hmono
        exact hmono.1 t ht
    have hmono' : (es.filterMap Event.clock).Pairwise (· ≤ ·) := by
      cases hc : e.clock <;> simp only [List.filterMap_cons, hc, List.pairwise_cons] at hmono
      · exact hmono
      · exact hmono.2
    obtain ⟨hh, hend⟩ := ih h₂ hk₁ hrest hmono'
    rw [step_entryTTL h₁] at hh
    refine ⟨?_, fun t ht hall => hend t ?_ fun t' ht' => hall t' ?_⟩
    · cases e with
      | receive msg tm =>
        simp only [handled]
        split
        · exact fun a ha => hh a (by simpa using ha)
        · next hout =>
          rintro a (ha | ⟨_, ha⟩)
          · rintro rfl
            have hnew := (step_receive_handled h₁ hout).1
            have := hk.has (hle₁ _ rfl)
            by_contra hlt
            exact absurd (this (by omega)) (by simpa [checkFwdCache] using hnew)
          · exact hh a ha
      | _ => exact fun a ha => hh a (by simpa [handled] using ha)
    · cases hc : e.clock with
      | none => exact ht
      | some t₁ => exact hall t₁ (by simp [List.filterMap_cons, hc])
    · cases hc : e.clock <;> simp [List.filterMap_cons, hc, ht']

/-- A message this node sent raw is not handled by it when it comes back within `CacheTTL`: its
digest went to the forward cache when it was sent, and the cache keeps it that long, so an echo
of it from a peer is dropped. -/
theorem sendRaw_not_handled {p p' : Pss} {pre post : List Event} {outs : List Output}
    {address : List UInt8} {topic : Topic} {msg : List UInt8} {messageTTL : Int} {now : Time}
    (hlen : address.length ≤ addressLength)
    (hmono : ((pre ++ .sendRaw address topic msg messageTTL now :: post).filterMap
      Event.clock).Pairwise (· ≤ ·))
    (h : run digest p (pre ++ .sendRaw address topic msg messageTTL now :: post) =
      .ok (p', outs)) :
    ∀ a ∈ handled digest post (outs.drop (pre.length + 1)),
      a.1 = digest (rawMessage address topic msg messageTTL now) →
        now.mono + p.forwardCache.entryTTL ≤ a.2 := by
  obtain ⟨p₁, outs₁, outs₂, h₁, h₂, rfl, hlen₁⟩ := run_append_ok h
  obtain ⟨p₂, inv, outs₃, h₃, h₄, rfl⟩ := run_cons_ok h₂
  have hv : validateAddress address = none := if_neg (Nat.not_lt.2 hlen)
  have hk : p₂.forwardCache.Keeps (digest (rawMessage address topic msg messageTTL now))
      now.mono now.mono := by
    cases h₃
    simp only [SendRaw, hv]
    exact TTLSet.keeps_add _ _ _
  have hpost : (post.filterMap Event.clock).Pairwise (· ≤ ·) ∧
      ∀ t ∈ post.filterMap Event.clock, now.mono ≤ t := by
    simp only [List.filterMap_append, List.filterMap_cons, Event.clock, List.pairwise_append,
      List.pairwise_cons] at hmono
    exact ⟨hmono.2.1.2, hmono.2.1.1⟩
  have hdrop : (outs₁ ++ (inv, p₂.outbox.drop p₁.outbox.length) :: outs₃).drop (pre.length + 1) =
      outs₃ := by
    simp [← hlen₁, List.drop_append_eq_append_drop]
  rw [hdrop]
  intro a ha hd
  have := (run_keeps h₄ hk hpost.2 hpost.1).1 a ha hd
  rwa [step_entryTTL h₃, run_entryTTL h₁] at this

/-- The echo of a raw message, a second after it was sent, is not handled. -/
theorem sendRaw_not_handled_echo :
    let p := New (List.replicate 32 0) rfl 0 (fun _ => none) (fun _ => none) NewParams
    let pre : List Event := []
    let echo := Event.receive (rawMessage [] ⟨[0, 0, 0, 0], rfl⟩ [1] 120000000000 ⟨0, 0⟩)
      ⟨1000000000, 1000000000⟩
    ∃ p' outs, ([] : List UInt8).length ≤ addressLength ∧
      ((pre ++ .sendRaw [] ⟨[0, 0, 0, 0], rfl⟩ [1] 120000000000 ⟨0, 0⟩ :: [echo]).filterMap
        Event.clock).Pairwise (· ≤ ·) ∧
      run (·.payload) p (pre ++ .sendRaw [] ⟨[0, 0, 0, 0], rfl⟩ [1] 120000000000 ⟨0, 0⟩ :: [echo]) =
        .ok (p', outs) ∧
      ∀ a ∈ handled (·.payload) [echo] (outs.drop (pre.length + 1)),
        a.1 = (rawMessage [] ⟨[0, 0, 0, 0], rfl⟩ [1] 120000000000 ⟨0, 0⟩).payload →
          (⟨0, 0⟩ : Time).mono + p.forwardCache.entryTTL ≤ a.2 := by
  intro p pre echo
  obtain ⟨⟨p', outs⟩, h⟩ : ∃ r, run (·.payload) p
      (pre ++ .sendRaw [] ⟨[0, 0, 0, 0], rfl⟩ [1] 120000000000 ⟨0, 0⟩ :: [echo]) = .ok r := ⟨_, rfl⟩
  have hmono : ((pre ++ .sendRaw [] ⟨[0, 0, 0, 0], rfl⟩ [1] 120000000000 ⟨0, 0⟩ :: [echo]).filterMap
      Event.clock).Pairwise (· ≤ ·) := by decide
  exact ⟨p', outs, by decide, hmono, h, sendRaw_not_handled (by decide) hmono h⟩

end Swarm.Pss
