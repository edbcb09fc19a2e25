import Swarm.Pss.Registry
import Swarm.Network.Address

/-!
# Handling a received message

`handlePssMsg` of pot/pot.go filters a received message. It drops an expired message and one whose
digest is in the forward cache, adds the digest to the cache, drops a raw message for a topic whose
cached handler capabilities take no raw messages, and asks `isSelfPossibleRecipient` whether this
node may be the recipient. A message for which it may not is enqueued for forwarding. Any other is
handed to `process`, which decrypts it, enqueues it again when its destination is partial or the
topic takes proximity delivery, and runs the topic's handlers (`executeHandlers`); a message that
does not decrypt is enqueued instead.

The message digest is a function `digest` of the message, and the key store is represented by
the results of its two key functions. The forward cache is a `TTLSet`: a digest added at clock
reading `t` is hit until `t + CacheTTL`, by the monotonic clock, and the periodic `GC` drops only
expired entries. The outbox is the list of what was enqueued; its delivery loop is not modelled.
A Go panic is an `Except.error` carrying the runtime message.
-/

namespace Swarm.Pss

/-- Modelled from the spec: `addressLength`, `len(pot.Address{})`. `pot.Address` is outside the
sources; the spec gives destination addresses of 0 to 32 bytes. -/
def addressLength : Nat := 32

/-- A reading of `time.Now()`: the wall clock, in nanoseconds since the unix epoch, and the
monotonic clock, in nanoseconds, by which `time.Time` values are compared. -/
structure Time where
  wall : Int
  mono : Int
deriving DecidableEq, Repr

/-- `t.Add(d)`: both readings move by the duration `d`. -/
def Time.Add (t : Time) (d : Int) : Time := ⟨t.wall + d, t.mono + d⟩

/-- `t.Unix()`: the wall clock in whole seconds. -/
def Time.Unix (t : Time) : Int := t.wall / 1000000000

/-- Modelled from the spec, the package being outside the sources: the `ttlset` of digests that
is the forward cache, a map from each digest added to the monotonic reading at which its entry
expires, `entryTTL` after it was added. -/
structure TTLSet where
  entryTTL : Int
  expiresAt : List UInt8 → Option Int

namespace TTLSet

/-- `ttlset.New`: an empty set whose entries live `entryTTL`. -/
def new (entryTTL : Int) : TTLSet := ⟨entryTTL, fun _ => none⟩

/-- `Add` at monotonic reading `now`: the key expires `entryTTL` from now, whatever its entry
said before. -/
def Add (s : TTLSet) (key : List UInt8) (now : Int) : TTLSet :=
  { s with expiresAt := Function.update s.expiresAt key (some (now + s.entryTTL)) }

/-- `Has` at `now`: the key has an entry that expires after `now`. -/
def Has (s : TTLSet) (key : List UInt8) (now : Int) : Bool :=
  match s.expiresAt key with
  | some e => decide (now < e)
  | none => false

/-- `GC` at `now`: the entries that expired before `now` are dropped. -/
def GC (s : TTLSet) (now : Int) : TTLSet :=
  { s with expiresAt := fun key => (s.expiresAt key).filter fun e => !decide (e < now) }

end TTLSet

/-- `message.Flags`. -/
structure Flags where
  raw : Bool
  symmetric : Bool
deriving DecidableEq, Repr

/-- `message.Message`: `toAddr` is `To`, the destination, and `expire` a unix time. -/
structure Message where
  toAddr : List UInt8
  flags : Flags
  expire : Nat
  topic : Topic
  payload : List UInt8
deriving DecidableEq, Repr

/-- What a key function returns for a message it decrypts: the payload, the key id, and the
sender's address, Go's `from`. -/
structure Decrypted where
  payload : List UInt8
  keyid : String
  sender : List UInt8
deriving DecidableEq, Repr

/-- One call `(h.f)(payload, peer, asymmetric, keyid)` of `executeHandlers`, the peer being made
from the sender's address. -/
structure Invocation where
  handler : Handler
  payload : List UInt8
  sender : List UInt8
  asymmetric : Bool
  keyid : String
deriving DecidableEq, Repr

end Swarm.Pss

namespace Swarm

/-- The fields of `Pss` that message handling reads and writes. The base address and the
neighbourhood depth are those of the embedded kademlia; `msgTTL` is the lifetime of the messages
`send` makes; `processSym` and `processAsym` are the key functions, `none` standing for a
decryption error. -/
structure Pss where
  baseAddr : List UInt8
  baseAddr_length : baseAddr.length = Pss.addressLength
  neighbourhoodDepth : Nat
  msgTTL : Int
  processSym : Pss.Message → Option Pss.Decrypted
  processAsym : Pss.Message → Option Pss.Decrypted
  forwardCache : Pss.TTLSet
  outbox : List Pss.Message
  registry : Pss.Registry

end Swarm

namespace Swarm.Pss

/-- `Params`, the fields the modelled functions read: `MsgTTL` and `CacheTTL`, durations in
nanoseconds. -/
structure Params where
  msgTTL : Int
  cacheTTL : Int

/-- `NewParams`: `defaultMsgTTL`, 120 s, and `defaultDigestCacheTTL`, 30 s. -/
def NewParams : Params := ⟨120000000000, 30000000000⟩

/-- `New`, on a kademlia with base address `baseAddr` and depth `neighbourhoodDepth`, with the key
store's two key functions: no handlers, an empty outbox, and a forward cache whose entries live
`CacheTTL`. The check of the private key is not modelled, and the ticker that calls the cache's
`GC` every `CacheTTL` is the event `gc` of a node. -/
def New (baseAddr : List UInt8) (h : baseAddr.length = addressLength) (neighbourhoodDepth : Nat)
    (processSym processAsym : Message → Option Decrypted) (params : Params) : Pss :=
  ⟨baseAddr, h, neighbourhoodDepth, params.msgTTL, processSym, processAsym,
    .new params.cacheTTL, [], Registry.new⟩

/-- `enqueue`: the message goes to the outbox. -/
def enqueue (p : Pss) (msg : Message) : Pss := { p with outbox := p.outbox ++ [msg] }

/-- `isRawTopicHandlerCaps`: the topic's cached `raw`, and whether the topic has caps cached. -/
def isRawTopicHandlerCaps (p : Pss) (topic : Topic) : Bool × Bool :=
  match p.registry.topicHandlerCaps topic with
  | none => (false, false)
  | some hc => (hc.raw, true)

/-- `isProxTopicHandlerCaps`: the topic's cached `prox`, and whether the topic has caps cached. -/
def isProxTopicHandlerCaps (p : Pss) (topic : Topic) : Bool × Bool :=
  match p.registry.topicHandlerCaps topic with
  | none => (false, false)
  | some hc => (hc.prox, true)

/-- `isSelfPossibleRecipient`: the destination is a prefix of the base address, or, with `prox`,
the base address is at least as close to it as the neighbourhood depth. `local[:len(msg.To)]`
panics past the capacity of the base address, which is its length. -/
def isSelfPossibleRecipient (p : Pss) (msg : Message) (prox : Bool) : Except String Bool :=
  if p.baseAddr.length < msg.toAddr.length then
    throw ("slice bounds out of range [:" ++ toString msg.toAddr.length ++ "] with capacity " ++
      toString p.baseAddr.length)
  else if msg.toAddr = p.baseAddr.take msg.toAddr.length then pure true
  else if !prox then pure false
  else pure (decide (p.neighbourhoodDepth ≤
    (Network.pof (bytesBits p.baseAddr) (bytesBits msg.toAddr) 0).1))

/-- `executeHandlers`: each handler of the topic, in the map's order, is invoked unless the
message is raw and the handler takes no raw messages, or the delivery is by proximity and the
handler takes none. -/
def executeHandlers (p : Pss) (topic : Topic) (payload sender : List UInt8)
    (raw prox asymmetric : Bool) (keyid : String) : List Invocation :=
  (p.registry.getHandlers topic).filterMap fun h =>
    if !h.caps.raw && raw then none
    else if !h.caps.prox && prox then none
    else some ⟨h, payload, sender, asymmetric, keyid⟩

/-- The key function `process` picks: `processSym` for a symmetric message, else `processAsym`. -/
def keyFunc (p : Pss) (symmetric : Bool) : Message → Option Decrypted :=
  if symmetric then p.processSym else p.processAsym

/-- `process`: the payload, decrypted unless the message is raw, goes to the topic's handlers;
first the message is enqueued again when its destination is partial or delivery is by proximity.
A message that does not decrypt is an error, and nothing changes. -/
def process (p : Pss) (msg : Message) (raw prox : Bool) :
    Except String (Pss × List Invocation) := do
  let (d, asymmetric) ← (if raw then pure (⟨msg.payload, "", []⟩, false) else
    match keyFunc p msg.flags.symmetric msg with
    | none => throw "decryption failed"
    | some d => pure (d, !msg.flags.symmetric) : Except String (Decrypted × Bool))
  let p := if msg.toAddr.length < addressLength ∨ prox then p.enqueue msg else p
  pure (p, p.executeHandlers msg.topic d.payload d.sender raw prox asymmetric d.keyid)

section Handle

variable (digest : Message → List UInt8)

/-- `checkFwdCache` at clock reading `now`: whether the forward cache hits the message's digest. -/
def checkFwdCache (p : Pss) (msg : Message) (now : Time) : Bool :=
  p.forwardCache.Has (digest msg) now.mono

/-- `addFwdCache` at clock reading `now`. -/
def addFwdCache (p : Pss) (msg : Message) (now : Time) : Pss :=
  { p with forwardCache := p.forwardCache.Add (digest msg) now.mono }

/-- `handlePssMsg` at clock reading `now`: the new state and the handler invocations. -/
def handlePssMsg (p : Pss) (msg : Message) (now : Time) : Except String (Pss × List Invocation) :=
  if (msg.expire : Int) < now.Unix then pure (p, [])
  else if p.checkFwdCache digest msg now then pure (p, [])
  else
    let p := p.addFwdCache digest msg now
    let psstopic := msg.topic
    if msg.flags.raw ∧ p.isRawTopicHandlerCaps psstopic = (false, true) then pure (p, [])
    else do
      let isRaw := msg.flags.raw
      let isProx := match p.isProxTopicHandlerCaps psstopic with
        | (prox, true) => prox
        | (_, false) => false
      let isRecipient ← p.isSelfPossibleRecipient msg isProx
      if !isRecipient then pure (p.enqueue msg, [])
      else tryCatch (p.process msg isRaw isProx) fun _ => pure (p.enqueue msg, [])

end Handle

end Swarm.Pss

namespace Swarm.Pss

/-! ## Reading the steps -/

variable (digest : Message → List UInt8)

@[simp] theorem enqueue_registry (p : Pss) (msg : Message) : (p.enqueue msg).registry = p.registry :=
  rfl

@[simp] theorem enqueue_outbox (p : Pss) (msg : Message) :
    (p.enqueue msg).outbox = p.outbox ++ [msg] := rfl

@[simp] theorem addFwdCache_registry (p : Pss) (msg : Message) (now : Time) :
    (p.addFwdCache digest msg now).registry = p.registry := rfl

@[simp] theorem addFwdCache_outbox (p : Pss) (msg : Message) (now : Time) :
    (p.addFwdCache digest msg now).outbox = p.outbox := rfl

@[simp] theorem addFwdCache_baseAddr (p : Pss) (msg : Message) (now : Time) :
    (p.addFwdCache digest msg now).baseAddr = p.baseAddr := rfl

@[simp] theorem addFwdCache_keyFunc (p : Pss) (msg : Message) (now : Time) :
    (p.addFwdCache digest msg now).keyFunc = p.keyFunc := rfl

@[simp] theorem isRawTopicHandlerCaps_addFwdCache (p : Pss) (msg : Message) (now : Time) :
    (p.addFwdCache digest msg now).isRawTopicHandlerCaps = p.isRawTopicHandlerCaps := rfl

@[simp] theorem isProxTopicHandlerCaps_addFwdCache (p : Pss) (msg : Message) (now : Time) :
    (p.addFwdCache digest msg now).isProxTopicHandlerCaps = p.isProxTopicHandlerCaps := rfl

/-- What `handlePssMsg` does with a message that is neither expired nor already seen. -/
theorem handlePssMsg_fresh (p : Pss) (msg : Message) (now : Time) (hexp : now.Unix ≤ msg.expire)
    (hnew : p.checkFwdCache digest msg now = false) :
    handlePssMsg digest p msg now =
      if msg.flags.raw ∧ p.isRawTopicHandlerCaps msg.topic = (false, true) then
        pure (p.addFwdCache digest msg now, [])
      else
        (p.addFwdCache digest msg now).isSelfPossibleRecipient msg
          (p.isProxTopicHandlerCaps msg.topic).1 >>= fun isRecipient =>
        if !isRecipient then pure ((p.addFwdCache digest msg now).enqueue msg, [])
        else tryCatch ((p.addFwdCache digest msg now).process msg msg.flags.raw
          (p.isProxTopicHandlerCaps msg.topic).1)
          (fun _ => pure ((p.addFwdCache digest msg now).enqueue msg, [])) := by
  have hprox : (match p.isProxTopicHandlerCaps msg.topic with
      | (prox, true) => prox
      | (_, false) => false) = (p.isProxTopicHandlerCaps msg.topic).1 := by
    unfold isProxTopicHandlerCaps; cases p.registry.topicHandlerCaps msg.topic <;> rfl
  simp only [handlePssMsg, hnew, Int.not_lt.2 hexp, if_false, Bool.false_eq_true,
    isRawTopicHandlerCaps_addFwdCache, isProxTopicHandlerCaps_addFwdCache, hprox]

/-- A destination that is the whole base address makes this node a possible recipient. -/
theorem isSelfPossibleRecipient_self (p : Pss) (msg : Message) (prox : Bool)
    (hto : msg.toAddr = p.baseAddr) : p.isSelfPossibleRecipient msg prox = pure true := by
  simp [isSelfPossibleRecipient, hto]

/-- A destination no longer than an address is judged without a panic, and a possible
recipient is one whose base address starts with the destination, or one reached by proximity. -/
theorem isSelfPossibleRecipient_of_le (p : Pss) (msg : Message) (prox : Bool)
    (hlen : msg.toAddr.length ≤ addressLength) :
    ∃ b, p.isSelfPossibleRecipient msg prox = pure b ∧
      (b = true → msg.toAddr = p.baseAddr.take msg.toAddr.length ∨ prox = true) := by
  have : ¬ p.baseAddr.length < msg.toAddr.length := by rw [p.baseAddr_length]; omega
  unfold isSelfPossibleRecipient
  rw [if_neg this]
  split
  · exact ⟨true, rfl, fun _ => .inl ‹_›⟩
  · split
    · exact ⟨false, rfl, by simp⟩
    · next hprox => exact ⟨_, rfl, fun _ => .inr (by simpa using hprox)⟩

/-- A destination longer than an address makes `isSelfPossibleRecipient` slice the base address
past its capacity. -/
theorem isSelfPossibleRecipient_long (p : Pss) (msg : Message) (prox : Bool)
    (hlong : addressLength < msg.toAddr.length) :
    p.isSelfPossibleRecipient msg prox = throw ("slice bounds out of range [:" ++
      toString msg.toAddr.length ++ "] with capacity " ++ toString addressLength) := by
  have : p.baseAddr.length < msg.toAddr.length := by rw [p.baseAddr_length]; exact hlong
  rw [isSelfPossibleRecipient, if_pos this, p.baseAddr_length]

/-- `process` of a message that is raw or decrypts: the topic's handlers run on the payload, and
the message is enqueued again for a partial destination or a delivery by proximity. -/
theorem process_ok (p : Pss) (msg : Message) (prox : Bool)
    (hdec : msg.flags.raw = true ∨ (p.keyFunc msg.flags.symmetric msg).isSome) :
    ∃ (d : Decrypted) (asymmetric : Bool), p.process msg msg.flags.raw prox =
      .ok (if msg.toAddr.length < addressLength ∨ prox then p.enqueue msg else p,
        p.executeHandlers msg.topic d.payload d.sender msg.flags.raw prox asymmetric d.keyid) := by
  rcases hraw : msg.flags.raw
  · obtain ⟨d, hd⟩ := Option.isSome_iff_exists.1 (hdec.resolve_left (by simp [hraw]))
    refine ⟨d, !msg.flags.symmetric, ?_⟩
    simp only [process, hraw, hd, Bool.false_eq_true, ite_false, pure_bind]
    split <;> rfl
  · refine ⟨⟨msg.payload, "", []⟩, false, ?_⟩
    simp only [process, hraw, ite_true, pure_bind]
    split <;> rfl

/-- `process` of a message that neither is raw nor decrypts fails, changing nothing. -/
theorem process_error (p : Pss) (msg : Message) (prox : Bool) (hraw : msg.flags.raw = false)
    (hdec : p.keyFunc msg.flags.symmetric msg = none) :
    p.process msg msg.flags.raw prox = .error "decryption failed" := by
  simp [process, hraw, hdec]
  rfl

/-! ## Which handlers run -/

/-- Whether `executeHandlers` invokes `h` for a message with these `raw` and `prox` flags: `h`
takes raw messages or the message is not raw, and `h` takes proximity delivery or the delivery
is not by proximity. -/
def admits (h : Handler) (raw prox : Bool) : Bool := (h.caps.raw || !raw) && (h.caps.prox || !prox)

@[simp] theorem executeHandlers_enqueue (p : Pss) (msg : Message) :
    (p.enqueue msg).executeHandlers = p.executeHandlers := rfl

@[simp] theorem executeHandlers_addFwdCache (p : Pss) (msg : Message) (now : Time) :
    (p.addFwdCache digest msg now).executeHandlers = p.executeHandlers := rfl

/-- `executeHandlers` invokes, in the order of `getHandlers`, each handler of the topic whose
capabilities admit the message's raw and prox flags. -/
theorem executeHandlers_eq (p : Pss) (topic : Topic) (payload sender : List UInt8)
    (raw prox asymmetric : Bool) (keyid : String) :
    p.executeHandlers topic payload sender raw prox asymmetric keyid =
      (p.registry.getHandlers topic).filterMap fun h =>
        if admits h raw prox then some ⟨h, payload, sender, asymmetric, keyid⟩ else none := by
  unfold executeHandlers
  congr
  funext ⟨id, hraw, hprox⟩
  cases hraw <;> cases raw <;> cases hprox <;> cases prox <;> rfl

/-- Over a handler set without repetitions, each admitted handler is invoked exactly once and no
other handler is invoked. -/
theorem countP_filterMap_handler {l : List Handler} (hl : l.Nodup) (adm : Handler → Bool)
    (mk : Handler → Invocation) (hmk : ∀ h, (mk h).handler = h) (h : Handler) :
    (l.filterMap fun h' => if adm h' then some (mk h') else none).countP (fun i => i.handler = h)
      = if h ∈ l ∧ adm h = true then 1 else 0 := by
  induction l with
  | nil => simp
  | cons a l ih =>
    rw [List.nodup_cons] at hl
    by_cases hah : a = h
    · subst hah
      cases hadm : adm a <;> simp [List.filterMap_cons, hadm, hmk, ih hl.2, hl.1]
    · cases hadm : adm a <;> simp [List.filterMap_cons, hadm, hmk, ih hl.2, hah, Ne.symm hah]

/-- `executeHandlers` invokes a handler once when it is registered for the topic and admits the
flags, and otherwise not at all. -/
theorem countP_executeHandlers (p : Pss) (topic : Topic) (payload sender : List UInt8)
    (raw prox asymmetric : Bool) (keyid : String) (h : Handler) :
    (p.executeHandlers topic payload sender raw prox asymmetric keyid).countP
      (fun i => i.handler = h) =
      if h ∈ p.registry.getHandlers topic ∧ admits h raw prox = true then 1 else 0 := by
  rw [executeHandlers_eq]
  exact countP_filterMap_handler (p.registry.nodup_getHandlers topic) _ _ (fun _ => rfl) h

/-! ## What happens to a received message -/

/-- A fresh message whose destination is longer than an address, and which is not dropped as raw,
makes `handlePssMsg` panic when it slices the base address to the destination's length; the
digest is already in the forward cache by then. -/
theorem handlePssMsg_long_panics (p : Pss) (msg : Message) (now : Time)
    (hlong : addressLength < msg.toAddr.length) (hexp : now.Unix ≤ msg.expire)
    (hnew : p.checkFwdCache digest msg now = false)
    (hraw : ¬(msg.flags.raw = true ∧ p.isRawTopicHandlerCaps msg.topic = (false, true))) :
    handlePssMsg digest p msg now = .error ("slice bounds out of range [:" ++
      toString msg.toAddr.length ++ "] with capacity " ++ toString addressLength) := by
  rw [handlePssMsg_fresh digest p msg now hexp hnew, if_neg hraw,
    isSelfPossibleRecipient_long _ _ _ hlong]
  rfl

/-- A message with a 33-byte destination to a new node panics. -/
theorem handlePssMsg_long_panics_33 :
    let p := New (List.replicate 32 0) rfl 0 (fun _ => none) (fun _ => none) NewParams
    let msg : Message := ⟨List.replicate 33 0, ⟨false, false⟩, 0, ⟨[0, 0, 0, 0], rfl⟩, []⟩
    addressLength < msg.toAddr.length ∧ (⟨0, 0⟩ : Time).Unix ≤ msg.expire ∧
      p.checkFwdCache (fun _ => []) msg ⟨0, 0⟩ = false ∧
      ¬(msg.flags.raw = true ∧ p.isRawTopicHandlerCaps msg.topic = (false, true)) ∧
      handlePssMsg (fun _ => []) p msg ⟨0, 0⟩ =
        .error "slice bounds out of range [:33] with capacity 32" := by
  intro p msg
  have hraw : ¬(msg.flags.raw = true ∧ p.isRawTopicHandlerCaps msg.topic = (false, true)) := by
    simp [msg]
  exact ⟨by decide, by decide, rfl, hraw,
    (handlePssMsg_long_panics (fun _ => []) p msg ⟨0, 0⟩ (by decide) (by decide) rfl hraw).trans
      (congrArg Except.error (by decide))⟩

/-- A fresh message addressed to exactly this node, raw or decrypting, is processed: each handler
of the topic that takes the message's raw flag, and takes proximity delivery when the topic's
cached capabilities do, is invoked exactly once, and no other handler is. A raw message for a
topic whose cached capabilities take no raw messages is dropped and invokes none. -/
theorem handlePssMsg_invokes (p : Pss) (msg : Message) (now : Time) (hexp : now.Unix ≤ msg.expire)
    (hnew : p.checkFwdCache digest msg now = false) (hto : msg.toAddr = p.baseAddr)
    (hdec : msg.flags.raw = true ∨ (p.keyFunc msg.flags.symmetric msg).isSome = true) :
    ∃ p' invs, handlePssMsg digest p msg now = .ok (p', invs) ∧
      ∀ h, invs.countP (fun i => i.handler = h) =
        if h ∈ p.registry.getHandlers msg.topic ∧
          ¬(msg.flags.raw = true ∧ p.isRawTopicHandlerCaps msg.topic = (false, true)) ∧
          admits h msg.flags.raw (p.isProxTopicHandlerCaps msg.topic).1 = true then 1 else 0 := by
  rw [handlePssMsg_fresh digest p msg now hexp hnew]
  by_cases hdrop : msg.flags.raw = true ∧ p.isRawTopicHandlerCaps msg.topic = (false, true)
  · exact ⟨_, [], by rw [if_pos hdrop]; rfl, fun h => by simp [hdrop]⟩
  · obtain ⟨d, asymmetric, hproc⟩ := process_ok (p.addFwdCache digest msg now) msg
      (p.isProxTopicHandlerCaps msg.topic).1 (by simpa using hdec)
    rw [if_neg hdrop, isSelfPossibleRecipient_self _ _ _ (by simpa using hto), pure_bind]
    simp only [Bool.not_true, Bool.false_eq_true, if_false, hproc]
    refine ⟨_, _, rfl, fun h => ?_⟩
    rw [countP_executeHandlers]
    simp [hdrop]

/-- A raw message addressed to a new node whose topic has a handler that takes raw messages and
one that does not: the first is invoked once, the second not at all. -/
theorem handlePssMsg_invokes_raw :
    let p : Pss := { New (List.replicate 32 0) rfl 0 (fun _ => none) (fun _ => none) NewParams with
      registry := (Registry.new.register ⟨[0, 0, 0, 0], rfl⟩ (NewHandler 1).WithRaw).register
        ⟨[0, 0, 0, 0], rfl⟩ (NewHandler 2) }
    let msg : Message := ⟨List.replicate 32 0, ⟨true, false⟩, 0, ⟨[0, 0, 0, 0], rfl⟩, []⟩
    (⟨0, 0⟩ : Time).Unix ≤ msg.expire ∧ p.checkFwdCache (fun _ => []) msg ⟨0, 0⟩ = false ∧
      msg.toAddr = p.baseAddr ∧
      (msg.flags.raw = true ∨ (p.keyFunc msg.flags.symmetric msg).isSome = true) ∧
      ∃ p' invs, handlePssMsg (fun _ => []) p msg ⟨0, 0⟩ = .ok (p', invs) ∧
        ∀ h, invs.countP (fun i => i.handler = h) =
          if h ∈ p.registry.getHandlers msg.topic ∧
            ¬(msg.flags.raw = true ∧ p.isRawTopicHandlerCaps msg.topic = (false, true)) ∧
            admits h msg.flags.raw (p.isProxTopicHandlerCaps msg.topic).1 = true then 1 else 0 := by
  intro p msg
  exact ⟨by decide, rfl, rfl, .inl rfl,
    handlePssMsg_invokes (fun _ => []) p msg ⟨0, 0⟩ (by decide) rfl rfl (.inl rfl)⟩

/-- A fresh message addressed to exactly this node need not reach every handler of its topic that
admits its raw flag: on a topic with a handler that takes proximity delivery and one that does
not, a symmetric message that decrypts, addressed to the node, runs the first handler only. -/
theorem handlePssMsg_skips_nonprox : ¬ ∀ (p : Pss) (msg : Message) (now : Time),
    now.Unix ≤ msg.expire → p.checkFwdCache (fun _ => []) msg now = false →
    msg.toAddr = p.baseAddr →
    (msg.flags.raw = true ∨ (p.keyFunc msg.flags.symmetric msg).isSome = true) →
    ∃ p' invs, handlePssMsg (fun _ => []) p msg now = .ok (p', invs) ∧
      ∀ h, invs.countP (fun i => i.handler = h) =
        if h ∈ p.registry.getHandlers msg.topic ∧ (h.caps.raw || !msg.flags.raw) = true
        then 1 else 0 := by
  intro H
  let p : Pss :=
    { New (List.replicate 32 0) rfl 0 (fun _ => some ⟨[], "", []⟩) (fun _ => none) NewParams with
      registry := (Registry.new.register ⟨[0, 0, 0, 0], rfl⟩ (NewHandler 1)).register
        ⟨[0, 0, 0, 0], rfl⟩ (NewHandler 2).WithProxBin }
  let msg : Message := ⟨List.replicate 32 0, ⟨false, true⟩, 0, ⟨[0, 0, 0, 0], rfl⟩, []⟩
  obtain ⟨p', invs, hres, hcount⟩ := H p msg ⟨0, 0⟩ (by decide) rfl rfl (by decide)
  have hrun : (handlePssMsg (fun _ => []) p msg ⟨0, 0⟩).toOption.map
      (fun r => r.2.countP (fun i => i.handler = NewHandler 1)) = some 0 := by decide
  rw [hres] at hrun
  simp only [Except.toOption, Option.map_some', Option.some.injEq] at hrun
  have hmem : NewHandler 1 ∈ p.registry.getHandlers msg.topic := by decide
  rw [hcount, if_pos ⟨hmem, rfl⟩] at hrun
  exact absurd hrun (by decide)

/-- A fresh message with a destination no longer than an address is enqueued for forwarding,
except in two cases. A raw message for a topic whose cached capabilities take no raw messages is
dropped: nothing is enqueued and no handler runs. A message addressed to exactly this node, for a
topic whose cached capabilities take no proximity delivery, is processed locally: when it is raw
or decrypts, its handlers run and nothing is enqueued, and otherwise it is enqueued. -/
theorem handlePssMsg_enqueues (p : Pss) (msg : Message) (now : Time)
    (hlen : msg.toAddr.length ≤ addressLength) (hexp : now.Unix ≤ msg.expire)
    (hnew : p.checkFwdCache digest msg now = false) :
    ∃ p' invs, handlePssMsg digest p msg now = .ok (p', invs) ∧
      p'.outbox = p.outbox ++
        (if (msg.flags.raw = true ∧ p.isRawTopicHandlerCaps msg.topic = (false, true)) ∨
          (msg.toAddr = p.baseAddr ∧ (p.isProxTopicHandlerCaps msg.topic).1 = false ∧
            (msg.flags.raw = true ∨ (p.keyFunc msg.flags.symmetric msg).isSome = true))
        then [] else [msg]) ∧
      ((msg.flags.raw = true ∧ p.isRawTopicHandlerCaps msg.topic = (false, true)) → invs = []) ∧
      (msg.toAddr = p.baseAddr → (p.isProxTopicHandlerCaps msg.topic).1 = false →
        ¬(msg.flags.raw = true ∧ p.isRawTopicHandlerCaps msg.topic = (false, true)) →
        (msg.flags.raw = true ∨ (p.keyFunc msg.flags.symmetric msg).isSome = true) →
        ∃ (d : Decrypted) (asymmetric : Bool), invs =
          p.executeHandlers msg.topic d.payload d.sender msg.flags.raw false asymmetric d.keyid) := by
  rw [handlePssMsg_fresh digest p msg now hexp hnew]
  by_cases hdrop : msg.flags.raw = true ∧ p.isRawTopicHandlerCaps msg.topic = (false, true)
  · exact ⟨_, [], by rw [if_pos hdrop]; rfl, by simp [hdrop], fun _ => rfl,
      fun _ _ h => absurd hdrop h⟩
  rw [if_neg hdrop]
  set prox := (p.isProxTopicHandlerCaps msg.topic).1
  obtain ⟨b, hb, hbimp⟩ :=
    isSelfPossibleRecipient_of_le (p.addFwdCache digest msg now) msg prox hlen
  have hself : msg.toAddr = p.baseAddr → b = true := fun h => by
    have := isSelfPossibleRecipient_self (p.addFwdCache digest msg now) msg prox (by simpa using h)
    rw [hb] at this
    exact Except.ok.inj this
  rw [hb, pure_bind]
  cases b with
  | false =>
    -- not a possible recipient: forwarded
    refine ⟨_, [], rfl, ?_, fun h => absurd h hdrop, fun h _ _ _ => absurd (hself h) (by simp)⟩
    rw [if_neg]
    · rfl
    · rintro (hd | ⟨he, -⟩)
      · exact hdrop hd
      · exact absurd (hself he) (by simp)
  | true =>
    by_cases hdec : msg.flags.raw = true ∨ (p.keyFunc msg.flags.symmetric msg).isSome = true
    · -- processed; enqueued again for a partial destination or a delivery by proximity
      obtain ⟨d, asymmetric, hproc⟩ :=
        process_ok (p.addFwdCache digest msg now) msg prox (by simpa using hdec)
      simp only [Bool.not_true, Bool.false_eq_true, if_false, hproc]
      refine ⟨_, _, rfl, ?_, fun h => absurd h hdrop,
        fun _ hprox _ _ => ⟨d, asymmetric, by simp [hprox]⟩⟩
      by_cases hpx : prox = true
      · simp [hpx, hdrop]
      have hto := (hbimp rfl).resolve_right hpx
      by_cases hfull : msg.toAddr.length = addressLength
      · have he : msg.toAddr = p.baseAddr := by
          rw [hto, addFwdCache_baseAddr, hfull, ← p.baseAddr_length, List.take_length]
        simp [he, p.baseAddr_length, hpx, hdec]
      · have hne : msg.toAddr ≠ p.baseAddr := fun h => hfull (by rw [h, p.baseAddr_length])
        have hlt : msg.toAddr.length < addressLength := by omega
        simp [hlt, hne, hdrop]
    · -- does not decrypt: forwarded
      have hraw : msg.flags.raw = false := by simpa using (not_or.1 hdec).1
      have hkey : (p.addFwdCache digest msg now).keyFunc msg.flags.symmetric msg = none := by
        simpa using (not_or.1 hdec).2
      simp only [Bool.not_true, Bool.false_eq_true, if_false,
        process_error _ _ _ hraw hkey]
      refine ⟨_, [], rfl, ?_, fun h => absurd h hdrop, fun _ _ _ h => absurd h hdec⟩
      simp [hdrop, hdec]

/-- A symmetric message with an empty destination, to a new node that cannot decrypt it, is
enqueued. -/
theorem handlePssMsg_enqueues_partial :
    let p := New (List.replicate 32 0) rfl 0 (fun _ => none) (fun _ => none) NewParams
    let msg : Message := ⟨[], ⟨false, true⟩, 0, ⟨[0, 0, 0, 0], rfl⟩, []⟩
    msg.toAddr.length ≤ addressLength ∧ (⟨0, 0⟩ : Time).Unix ≤ msg.expire ∧
      p.checkFwdCache (fun _ => []) msg ⟨0, 0⟩ = false ∧
      ∃ p' invs, handlePssMsg (fun _ => []) p msg ⟨0, 0⟩ = .ok (p', invs) ∧
        p'.outbox = p.outbox ++
          (if (msg.flags.raw = true ∧ p.isRawTopicHandlerCaps msg.topic = (false, true)) ∨
            (msg.toAddr = p.baseAddr ∧ (p.isProxTopicHandlerCaps msg.topic).1 = false ∧
              (msg.flags.raw = true ∨ (p.keyFunc msg.flags.symmetric msg).isSome = true))
          then [] else [msg]) ∧
        ((msg.flags.raw = true ∧ p.isRawTopicHandlerCaps msg.topic = (false, true)) →
          invs = []) ∧
        (msg.toAddr = p.baseAddr → (p.isProxTopicHandlerCaps msg.topic).1 = false →
          ¬(msg.flags.raw = true ∧ p.isRawTopicHandlerCaps msg.topic = (false, true)) →
          (msg.flags.raw = true ∨ (p.keyFunc msg.flags.symmetric msg).isSome = true) →
          ∃ (d : Decrypted) (asymmetric : Bool), invs =
            p.executeHandlers msg.topic d.payload d.sender msg.flags.raw false asymmetric
              d.keyid) := by
  intro p msg
  exact ⟨by decide, by decide, rfl,
    handlePssMsg_enqueues (fun _ => []) p msg ⟨0, 0⟩ (by decide) (by decide) rfl⟩

/-- A fresh message with a destination no longer than an address can be dropped although it is
not addressed to exactly this node on a topic without proximity delivery: a raw message with an
empty destination, for a topic whose one handler takes no raw messages, is neither enqueued nor
processed. -/
theorem handlePssMsg_drops_raw : ¬ ∀ (p : Pss) (msg : Message) (now : Time),
    msg.toAddr.length ≤ addressLength → now.Unix ≤ msg.expire →
    p.checkFwdCache (fun _ => []) msg now = false →
    ¬(msg.toAddr.length = addressLength ∧ msg.toAddr = p.baseAddr ∧
      (p.isProxTopicHandlerCaps msg.topic).1 = false) →
    ∃ p' invs, handlePssMsg (fun _ => []) p msg now = .ok (p', invs) ∧ msg ∈ p'.outbox := by
  intro H
  let p : Pss := { New (List.replicate 32 0) rfl 0 (fun _ => none) (fun _ => none) NewParams with
    registry := Registry.new.register ⟨[0, 0, 0, 0], rfl⟩ (NewHandler 1) }
  let msg : Message := ⟨[], ⟨true, false⟩, 0, ⟨[0, 0, 0, 0], rfl⟩, []⟩
  obtain ⟨p', invs, hres, hmem⟩ :=
    H p msg ⟨0, 0⟩ (by decide) (by decide) rfl (by simp [msg, addressLength])
  have hrun : (handlePssMsg (fun _ => []) p msg ⟨0, 0⟩).toOption.map (fun r => r.1.outbox) =
      some [] := by decide
  rw [hres] at hrun
  simp only [Except.toOption, Option.map_some', Option.some.injEq] at hrun
  simp [hrun] at hmem

end Swarm.Pss
