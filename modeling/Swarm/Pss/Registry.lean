import Mathlib.Data.List.Nodup
import Mathlib.Logic.Function.Basic

/-!
# The handler registry

`Pss.Register` and `Pss.deregister` of pot/pot.go keep, per topic, the set of registered handlers
and a cache of the capabilities those handlers have (`topicHandlerCaps`). Both maps are functions
here, a missing key being `none`; a handler set is a list without repetitions, in the map's
iteration order. `deregister_drops_topic` shows that deregistering one handler of a topic that
holds several deletes the topic's whole set.
-/

namespace Swarm.Pss

/-- `message.Topic`, four bytes. -/
structure Topic where
  bytes : List UInt8
  length_bytes : bytes.length = 4
deriving DecidableEq, Repr

/-- `handlerCaps`: whether a handler accepts raw messages and proximity delivery. -/
structure HandlerCaps where
  raw : Bool
  prox : Bool
deriving DecidableEq, Repr

/-- `handler`. The pointer, which keys the handler maps, is `id`. The handler function is not
modelled: `executeHandlers` records each invocation instead. `caps` is never nil, as `NewHandler`
sets it, so `Register`'s nil check has nothing to do. -/
structure Handler where
  id : Nat
  caps : HandlerCaps
deriving DecidableEq, Repr

/-- `NewHandler`: a handler with no capability; `id` stands for the new pointer. -/
def NewHandler (id : Nat) : Handler := ⟨id, ⟨false, false⟩⟩

/-- `WithRaw`. Go sets the flag through the pointer, so a handler changed after it is registered
changes in the registry too, and the cached `topicHandlerCaps` does not follow; here the handler
is a value, built before it is registered. -/
def Handler.WithRaw (h : Handler) : Handler := { h with caps := { h.caps with raw := true } }

/-- `WithProxBin`, like `WithRaw` for the proximity flag. -/
def Handler.WithProxBin (h : Handler) : Handler := { h with caps := { h.caps with prox := true } }

/-- The registry fields of `Pss`: `handlers`, whose handler sets are lists without repetitions,
and `topicHandlerCaps`. -/
structure Registry where
  handlers : Topic → Option (List Handler)
  handlers_nodup : ∀ topic l, handlers topic = some l → l.Nodup
  topicHandlerCaps : Topic → Option HandlerCaps

namespace Registry

/-- The registry `New` makes: both maps empty. -/
def new : Registry := ⟨fun _ => none, (fun _ _ h => by cases h), fun _ => none⟩

/-- `p.handlers[topic]` read as a set: a missing topic is Go's nil map, with no handlers. -/
def getHandlers (r : Registry) (topic : Topic) : List Handler := (r.handlers topic).getD []

/-- `getHandlers` lists each handler of a topic once. -/
theorem nodup_getHandlers (r : Registry) (topic : Topic) : (r.getHandlers topic).Nodup := by
  unfold getHandlers
  cases h : r.handlers topic with
  | none => exact List.nodup_nil
  | some l => exact r.handlers_nodup topic l h

/-- Writes the handler set of one topic; `none` deletes the topic. -/
def setHandlers (r : Registry) (topic : Topic) (l : Option (List Handler))
    (hl : ∀ l', l = some l' → l'.Nodup) : Registry :=
  { r with
    handlers := Function.update r.handlers topic l
    handlers_nodup := fun t l' h => by
      by_cases e : t = topic
      · subst e; exact hl l' (by simpa using h)
      · exact r.handlers_nodup t l' (by simpa [e] using h) }

/-- `setTopicHandlerCaps`. -/
def setTopicHandlerCaps (r : Registry) (topic : Topic) (hc : HandlerCaps) : Registry :=
  { r with topicHandlerCaps := Function.update r.topicHandlerCaps topic (some hc) }

/-- `getOrSetTopicHandlerCaps`: the topic's cached capabilities, created empty when missing, with
`raw` and `prox` set when asked for. -/
def getOrSetTopicHandlerCaps (r : Registry) (topic : Topic) (raw prox : Bool) : Registry :=
  let hc := (r.topicHandlerCaps topic).getD ⟨false, false⟩
  r.setTopicHandlerCaps topic ⟨hc.raw || raw, hc.prox || prox⟩

/-- The handler set after `handlers[hndlr] = true`. -/
def insertHandler (hndlr : Handler) (l : List Handler) : List Handler :=
  if hndlr ∈ l then l else l ++ [hndlr]

/-- Inserting a handler into a set of handlers keeps each handler once. -/
theorem nodup_insertHandler {l : List Handler} (hl : l.Nodup) (hndlr : Handler) :
    (insertHandler hndlr l).Nodup := by
  unfold insertHandler
  split
  · exact hl
  · exact hl.append (List.nodup_singleton _) (by simpa [List.disjoint_singleton])

/-- `Register`: adds `hndlr` to the topic's handler set, creating the set when missing, and sets
the topic's cached capabilities that `hndlr` has. -/
def register (r : Registry) (topic : Topic) (hndlr : Handler) : Registry :=
  (r.setHandlers topic (some (insertHandler hndlr (r.getHandlers topic)))
    (fun _ h => Option.some.inj h ▸ nodup_insertHandler (r.nodup_getHandlers topic) hndlr)
  ).getOrSetTopicHandlerCaps topic hndlr.caps.raw hndlr.caps.prox

/-- `deregister`. With more than one handler on the topic it deletes the topic's whole handler
set and caches the capabilities of the set it deleted; otherwise it deletes `hndlr` from the set,
if the topic has one. -/
def deregister (r : Registry) (topic : Topic) (hndlr : Handler) : Registry :=
  let handlers := r.getHandlers topic
  if handlers.length > 1 then
    (r.setHandlers topic none (fun _ h => by cases h)).setTopicHandlerCaps topic
      ⟨handlers.any (·.caps.raw), handlers.any (·.caps.prox)⟩
  else
    match h : r.handlers topic with
    | none => r
    | some l => r.setHandlers topic (some (l.erase hndlr))
        (fun _ e => Option.some.inj e ▸ (r.handlers_nodup topic l h).erase hndlr)

/-- Deregistering any handler of a topic that holds more than one deletes the topic's handler
set, and with it every other handler of the topic. -/
theorem deregister_drops_topic (r : Registry) (topic : Topic) (hndlr : Handler)
    (hmany : 1 < (r.getHandlers topic).length) :
    (r.deregister topic hndlr).handlers topic = none := by
  simp [deregister, hmany, setTopicHandlerCaps, setHandlers]

/-- Two handlers registered on one topic of a new registry, and the first deregistered: the
second is registered and was never deregistered, yet the topic has no handlers left. -/
theorem deregister_drops_topic_two :
    1 < (((new.register ⟨[0, 0, 0, 0], rfl⟩ ⟨1, ⟨false, false⟩⟩).register ⟨[0, 0, 0, 0], rfl⟩
      ⟨2, ⟨false, false⟩⟩).getHandlers ⟨[0, 0, 0, 0], rfl⟩).length ∧
    (((new.register ⟨[0, 0, 0, 0], rfl⟩ ⟨1, ⟨false, false⟩⟩).register ⟨[0, 0, 0, 0], rfl⟩
      ⟨2, ⟨false, false⟩⟩).deregister ⟨[0, 0, 0, 0], rfl⟩ ⟨1, ⟨false, false⟩⟩).handlers
      ⟨[0, 0, 0, 0], rfl⟩ = none := by
  have hmany : 1 < (((new.register ⟨[0, 0, 0, 0], rfl⟩ ⟨1, ⟨false, false⟩⟩).register
      ⟨[0, 0, 0, 0], rfl⟩ ⟨2, ⟨false, false⟩⟩).getHandlers ⟨[0, 0, 0, 0], rfl⟩).length := by
    simp [register, getHandlers, setHandlers, insertHandler, getOrSetTopicHandlerCaps,
      setTopicHandlerCaps, new]
  exact ⟨hmany, deregister_drops_topic _ _ _ hmany⟩

end Registry

end Swarm.Pss
