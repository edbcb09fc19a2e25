import Mathlib.Data.List.AList

/-!
# The span store

tracing/tracing.go keeps the spans that requests start in a process-wide `sync.Map`.
`StartSaveSpan` starts a span named by the context value under `StoreLabelId` and stores it under
that name, suffixed by the value under `StoreLabelMeta` when the context has one; `ShiftSpanByKey`
loads the span a key holds and deletes the key; `FinishSpans` finishes every stored span at
shutdown. The map is an `AList` from keys to spans, and the calls are steps on the state `Tracer`.

Read `shifted_once`: in a run of calls that do not overlap, no span is handed out twice, and none
that is handed out is still stored. `ShiftSpanByKey` reaches the map twice, though, once to load
and once to delete, and `Sys` runs the calls interleaved at their accesses to the map
(`run_events` shows that a run of calls one at a time is one of its runs), and there shifts of one
key that all load before the first deletes each get the same span. `overwritten_span_lost`: a
span saved under a key that already holds one pushes the older span out for good, so no later
shift hands it out and no `FinishSpans` finishes it.
-/

namespace Swarm.Tracing

/-- `StoreLabelId`, the context key of the name of the span to save. -/
def StoreLabelId : String := "span_save_id"

/-- `StoreLabelMeta`, the context key of the suffix of the key a span is saved under. -/
def StoreLabelMeta : String := "span_save_meta"

/-- A context value, an `interface{}`: a string, or a value of another dynamic type. -/
inductive CtxValue where
  | str (s : String)
  | other (type : String)
deriving DecidableEq, Repr

/-- The type assertion `v.(string)`, which panics on a value of another type. -/
def CtxValue.toStr : CtxValue → Except String String
  | .str s => .ok s
  | .other type => .error ("interface conversion: interface \x7b\x7d is " ++ type ++ ", not string")

/-- An `opentracing.Span`. The tracer gives every span it starts a fresh `id`, its identity. -/
structure Span where
  id : Nat
  operationName : String
deriving DecidableEq, Repr

/-- A `context.Context`: the values set by `context.WithValue`, innermost first, and the span it
carries. -/
structure Context where
  values : List (String × CtxValue)
  span : Option Span
deriving DecidableEq, Repr

/-- `ctx.Value(key)`: the innermost value set under `key`. -/
def Context.Value (ctx : Context) (key : String) : Option CtxValue := ctx.values.lookup key

/-- `Options`. `Setup` reads `Enabled` itself and hands `Endpoint` and `Name` to `initTracer`,
which is not modelled. -/
structure Options where
  Enabled : Bool
deriving DecidableEq, Repr

/-- The package's state: the flag `Enabled`, the map `store.spans`, the number of spans the tracer
has started, which is the next span's id, and the spans `Finish` was called on, in order. -/
structure Tracer where
  Enabled : Bool
  spans : AList fun _ : String => Span
  nextId : Nat
  finished : List Span

namespace Tracer

/-- The state at program start: tracing off, no span saved. -/
def init : Tracer := ⟨false, ∅, 0, []⟩

/-- The spans the map holds, in its order. -/
def stored (t : Tracer) : List Span := t.spans.entries.map Sigma.snd

/-- `Setup`: options that enable tracing switch it on; nothing switches it off. -/
def Setup (t : Tracer) (o : Options) : Tracer :=
  if !o.Enabled then t else { t with Enabled := true }

/-- `spancontext.StartSpan(ctx, name)`: the tracer starts a span with a fresh id, and the context
it returns carries the span and the values of `ctx`. -/
def startSpan (t : Tracer) (ctx : Context) (name : String) : Tracer × Context × Span :=
  ({ t with nextId := t.nextId + 1 }, { ctx with span := some ⟨t.nextId, name⟩ }, ⟨t.nextId, name⟩)

/-- The key `StartSaveSpan` stores a span named `traceStr` under: the name, suffixed by the
context's `StoreLabelMeta` when it has one. -/
def saveKey (traceStr : String) : Option CtxValue → Except String String
  | none => .ok traceStr
  | some traceMeta => do pure (traceStr ++ "." ++ (← traceMeta.toStr))

/-- `StartSaveSpan`. -/
def StartSaveSpan (t : Tracer) (ctx : Context) : Except String (Tracer × Context) :=
  if !t.Enabled then .ok (t, ctx) else
  match ctx.Value StoreLabelId with
  | none => .ok (t, ctx)
  | some traceId => do
    let traceStr ← traceId.toStr
    let (t, ctx, sp) := t.startSpan ctx traceStr
    let key ← saveKey traceStr (ctx.Value StoreLabelMeta)
    pure ({ t with spans := t.spans.insert key sp }, ctx)

/-- The state after a span named `name` is started and stored under `key`. -/
def save (t : Tracer) (key name : String) : Tracer :=
  { t with spans := t.spans.insert key ⟨t.nextId, name⟩, nextId := t.nextId + 1 }

/-- `ShiftSpanByKey`. -/
def ShiftSpanByKey (t : Tracer) (k : String) : Tracer × Option Span :=
  if !t.Enabled then (t, none) else
  match t.spans.lookup k with
  | none => (t, none)
  | some span => ({ t with spans := t.spans.erase k }, some span)

/-- `FinishSpans`: `Finish` on every stored span, in the map's order. The map keeps them. -/
def FinishSpans (t : Tracer) : Tracer := { t with finished := t.finished ++ t.stored }

/-- The first access of `ShiftSpanByKey` to the map, its `Load`, with the check of `Enabled`
before it: the span the shift returns. `Enabled` is only ever set, so reading it at the `Load`
leaves the same runs as reading it just before. -/
def shiftLoad (t : Tracer) (k : String) : Option Span :=
  if !t.Enabled then none else t.spans.lookup k

/-- The second access of `ShiftSpanByKey`, its `Delete`, made when the `Load` found a span. -/
def shiftDelete (t : Tracer) (k : String) : Option Span → Tracer
  | none => t
  | some _ => { t with spans := t.spans.erase k }

/-- `ShiftSpanByKey` is its load followed by its delete, returning what the load found. -/
theorem ShiftSpanByKey_eq (t : Tracer) (k : String) :
    t.ShiftSpanByKey k = (t.shiftDelete k (t.shiftLoad k), t.shiftLoad k) := by
  obtain ⟨en, spans, n, fin⟩ := t
  cases en
  · rfl
  · unfold ShiftSpanByKey shiftLoad
    cases spans.lookup k <;> rfl

end Tracer

/-- The calls a program makes on the package. -/
inductive Call where
  | setup (o : Options)
  | startSaveSpan (ctx : Context)
  | shiftSpanByKey (k : String)
  | finishSpans

/-- Steps run one after another, from `s`: the last state and the spans the steps handed out, in
order. A panic ends the run. -/
def runSteps {σ ε : Type} (step : σ → ε → Except String (σ × List Span)) :
    σ → List ε → Except String (σ × List Span)
  | s, [] => .ok (s, [])
  | s, e :: es => do
    let (s, o) ← step s e
    let (s, os) ← runSteps step s es
    pure (s, o ++ os)

namespace Tracer

/-- One call run alone: the new state and the span a shift hands out. The context
`StartSaveSpan` returns goes back to its caller. -/
def call (t : Tracer) : Call → Except String (Tracer × List Span)
  | .setup o => .ok (t.Setup o, [])
  | .startSaveSpan ctx => do let r ← t.StartSaveSpan ctx; pure (r.1, [])
  | .shiftSpanByKey k => .ok ((t.ShiftSpanByKey k).1, (t.ShiftSpanByKey k).2.toList)
  | .finishSpans => .ok (t.FinishSpans, [])

/-- Calls run one at a time. -/
def run (t : Tracer) (calls : List Call) : Except String (Tracer × List Span) :=
  runSteps call t calls

end Tracer

/-- The package with the calls in progress: the shifts that have made their `Load` and not yet
their `Delete`, latest first, each with its key and what it loaded. -/
structure Sys where
  tracer : Tracer
  loaded : List (String × Option Span)

/-- The steps of calls that run at once. A call that reaches the map once is one step; a shift is
two, its `load` and then its `delete`, made by the `i`-th shift in progress. -/
inductive Event where
  | setup (o : Options)
  | startSaveSpan (ctx : Context)
  | finishSpans
  | load (k : String)
  | delete (i : Nat)

namespace Sys

/-- One step. A shift whose `Load` found nothing returns nil at its second step. A `delete` of a
shift that is not in progress does nothing. -/
def step (s : Sys) : Event → Except String (Sys × List Span)
  | .setup o => .ok (⟨s.tracer.Setup o, s.loaded⟩, [])
  | .startSaveSpan ctx => do let r ← s.tracer.StartSaveSpan ctx; pure (⟨r.1, s.loaded⟩, [])
  | .finishSpans => .ok (⟨s.tracer.FinishSpans, s.loaded⟩, [])
  | .load k => .ok (⟨s.tracer, (k, s.tracer.shiftLoad k) :: s.loaded⟩, [])
  | .delete i =>
    match s.loaded[i]? with
    | none => .ok (s, [])
    | some (k, r) => .ok (⟨s.tracer.shiftDelete k r, s.loaded.eraseIdx i⟩, r.toList)

/-- Steps of calls that run at once, in the order the scheduler picks. -/
def run (s : Sys) (events : List Event) : Except String (Sys × List Span) :=
  runSteps step s events

/-- `ShiftSpanByKey` reaches the map twice, so two shifts of one key that both make their `Load`
before either makes its `Delete` hand out the same span twice. -/
example :
    let t : Tracer := ⟨true, (∅ : AList fun _ : String => Span).insert "a" ⟨0, "a"⟩, 1, []⟩
    run ⟨t, []⟩ [.load "a", .load "a", .delete 0, .delete 0] =
      .ok (⟨{ t with spans := t.spans.erase "a" }, []⟩, [⟨0, "a"⟩, ⟨0, "a"⟩]) := rfl

end Sys

/-- The steps of one call run alone. -/
def Call.events : Call → List Event
  | .setup o => [.setup o]
  | .startSaveSpan ctx => [.startSaveSpan ctx]
  | .shiftSpanByKey k => [.load k, .delete 0]
  | .finishSpans => [.finishSpans]

/-! ## Runs -/

section Runs

variable {σ ε : Type} {step : σ → ε → Except String (σ × List Span)}

@[simp] theorem runSteps_nil (s : σ) : runSteps step s [] = .ok (s, []) := rfl

/-- A run of steps is its first step, then the run from the state it leaves. -/
theorem runSteps_cons (s : σ) (e : ε) (es : List ε) :
    runSteps step s (e :: es) = (step s e).bind fun r =>
      (runSteps step r.1 es).bind fun q => .ok (q.1, r.2 ++ q.2) := rfl

/-- A run whose first step returns is the run from the state it leaves, its spans led by that
step's. -/
theorem runSteps_cons_ok {s s' : σ} {e : ε} {o : List Span} (h : step s e = .ok (s', o))
    (es : List ε) :
    runSteps step s (e :: es) = (runSteps step s' es).map fun q => (q.1, o ++ q.2) := by
  rw [runSteps_cons, h]
  show ((runSteps step s' es).bind fun q => .ok (q.1, o ++ q.2)) = _
  cases runSteps step s' es <;> rfl

/-- A run of two lists of steps is the run of the first, then the run of the second from where it
ends. -/
theorem runSteps_append (s : σ) (es es' : List ε) :
    runSteps step s (es ++ es') = (runSteps step s es).bind fun r =>
      (runSteps step r.1 es').bind fun q => .ok (q.1, r.2 ++ q.2) := by
  induction es generalizing s with
  | nil =>
    show runSteps step s es' = (runSteps step s es').bind fun q => .ok (q.1, [] ++ q.2)
    cases runSteps step s es' <;> rfl
  | cons e es ih =>
    simp only [List.cons_append, runSteps_cons, ih]
    cases step s e with
    | error => rfl
    | ok r =>
      simp only [Except.bind]
      cases runSteps step r.1 es with
      | error => rfl
      | ok q =>
        simp only [Except.bind]
        cases runSteps step q.1 es' <;> simp [List.append_assoc]

/-- What one step keeps, a whole run keeps: `P` holds of a state and what was handed out up to
it. -/
theorem runSteps_inv {P : σ → List Span → Prop}
    (hstep : ∀ s out e s' o, P s out → step s e = .ok (s', o) → P s' (out ++ o)) :
    ∀ (es : List ε) {s out s' os}, P s out → runSteps step s es = .ok (s', os) →
      P s' (out ++ os)
  | [], s, out, s', os, hP, h => by
    cases h
    simpa using hP
  | e :: es, s, out, s', os, hP, h => by
    cases he : step s e with
    | error => rw [runSteps_cons, he] at h; cases h
    | ok r =>
      rw [runSteps_cons_ok he] at h
      cases hr : runSteps step r.1 es with
      | error => rw [hr] at h; cases h
      | ok q =>
        rw [hr] at h
        cases h
        simpa [List.append_assoc] using runSteps_inv hstep es (hstep _ _ _ _ _ hP he) hr

end Runs

/-! ## One call alone -/

namespace Tracer

variable {t t' : Tracer} {ctx ctx' : Context}

/-- `StartSaveSpan` either leaves the state as it is or stores a span it has just started. -/
theorem StartSaveSpan_cases (h : t.StartSaveSpan ctx = .ok (t', ctx')) :
    t' = t ∨ ∃ key name, t' = t.save key name := by
  unfold StartSaveSpan at h
  split at h
  · cases h
    exact .inl rfl
  split at h
  · cases h
    exact .inl rfl
  · rename_i traceId _
    cases traceId with
    | other type => cases h
    | str name =>
      simp only [CtxValue.toStr, startSpan, bind, Except.bind] at h
      split at h
      · cases h
      · cases h
        exact .inr ⟨_, name, rfl⟩

/-- With tracing on and a name in the context, `StartSaveSpan` stores a new span under the key
`saveKey` gives. -/
theorem StartSaveSpan_saves (hen : t.Enabled = true) {name key : String}
    (hid : ctx.Value StoreLabelId = some (.str name))
    (hkey : saveKey name (ctx.Value StoreLabelMeta) = .ok key) :
    t.StartSaveSpan ctx = .ok (t.save key name, { ctx with span := some ⟨t.nextId, name⟩ }) := by
  simp only [Context.Value] at hid hkey
  simp [StartSaveSpan, hen, Context.Value, hid, CtxValue.toStr, startSpan, bind, Except.bind,
    hkey, pure, Except.pure, save]

/-- The spans stored around the one a key holds, before and after the key is deleted. -/
theorem stored_split {k : String} {sp : Span} (h : t.spans.lookup k = some sp) :
    ∃ l₁ l₂, t.stored = l₁ ++ sp :: l₂ ∧
      (t.spans.erase k).entries.map Sigma.snd = l₁ ++ l₂ := by
  have hmem : Sigma.mk k sp ∈ t.spans.entries := AList.mem_lookup_iff.1 h
  obtain ⟨b, l₁, l₂, -, he, hk⟩ := List.exists_of_kerase (List.mem_keys_of_mem hmem)
  have hb : b = sp := by
    have : b ∈ t.spans.lookup k := AList.mem_lookup_iff.2 (he ▸ by simp)
    simpa [h] using this.symm
  subst hb
  refine ⟨l₁.map Sigma.snd, l₂.map Sigma.snd, by simp [stored, he], ?_⟩
  show (t.spans.entries.kerase k).map Sigma.snd = _
  simp [hk]

/-- A span the map holds under a key is stored. -/
theorem mem_stored_of_lookup {k : String} {sp : Span} (h : t.spans.lookup k = some sp) :
    sp ∈ t.stored := by
  obtain ⟨l₁, l₂, hst, -⟩ := stored_split h
  simp [hst]

/-- Saving a span puts it first among the stored spans, in place of the key's old span. -/
theorem stored_save (key name : String) :
    (t.save key name).stored = ⟨t.nextId, name⟩ :: (t.spans.erase key).entries.map Sigma.snd :=
  rfl

/-- Deleting a key leaves a sublist of the stored spans. -/
theorem erase_sublist (k : String) :
    List.Sublist ((t.spans.erase k).entries.map Sigma.snd) t.stored :=
  (List.kerase_sublist k _).map _

/-- `Setup` switches tracing on when its options enable it and otherwise leaves it as it was. -/
theorem Setup_eq (t : Tracer) (o : Options) :
    t.Setup o = { t with Enabled := t.Enabled || o.Enabled } := by
  obtain ⟨en, spans, n, fin⟩ := t
  obtain ⟨oe⟩ := o
  cases en <;> cases oe <;> rfl

/-- The load of `ShiftSpanByKey` finds a span only with tracing enabled, and then it is the key's
span. -/
theorem lookup_of_shiftLoad {k : String} {sp : Span} (h : t.shiftLoad k = some sp) :
    t.Enabled = true ∧ t.spans.lookup k = some sp := by
  unfold shiftLoad at h
  cases hen : t.Enabled <;> simp_all

/-- What one call can do: change only `Enabled`, store a span it has just started, hand out and
delete the span a key holds, or finish the stored spans. -/
theorem call_cases {c : Call} {o : List Span} (h : t.call c = .ok (t', o)) :
    (∃ en, t' = { t with Enabled := en } ∧ o = []) ∨
    (∃ key name, t' = t.save key name ∧ o = []) ∨
    (∃ k sp, t.spans.lookup k = some sp ∧ t' = { t with spans := t.spans.erase k } ∧
      o = [sp]) ∨
    (t' = t.FinishSpans ∧ o = []) := by
  cases c with
  | setup o' =>
    cases h
    exact .inl ⟨_, Setup_eq t o', rfl⟩
  | startSaveSpan ctx =>
    simp only [call, bind, Except.bind] at h
    split at h
    · cases h
    · rename_i r hs
      cases h
      have hs' : t.StartSaveSpan ctx = .ok (r.1, r.2) := hs
      rcases StartSaveSpan_cases hs' with heq | ⟨key, name, heq⟩
      · exact .inl ⟨t.Enabled, heq, rfl⟩
      · exact .inr (.inl ⟨key, name, heq, rfl⟩)
  | shiftSpanByKey k =>
    simp only [call, ShiftSpanByKey_eq, Except.ok.injEq, Prod.mk.injEq] at h
    obtain ⟨rfl, rfl⟩ := h
    cases hr : t.shiftLoad k with
    | none => exact .inl ⟨t.Enabled, rfl, rfl⟩
    | some sp => exact .inr (.inr (.inl ⟨k, sp, (lookup_of_shiftLoad hr).2, rfl, rfl⟩))
  | finishSpans =>
    cases h
    exact .inr (.inr (.inr ⟨rfl, rfl⟩))

/-- What a call does to the spans `Finish` was called on: it adds stored spans, if any. -/
theorem call_finished {c : Call} {o : List Span} (h : t.call c = .ok (t', o)) :
    ∃ L, t'.finished = t.finished ++ L ∧ ∀ sp ∈ L, sp ∈ t.stored := by
  rcases call_cases h with ⟨en, rfl, -⟩ | ⟨key, name, rfl, -⟩ | ⟨k, sp, -, rfl, -⟩ | ⟨rfl, -⟩
  iterate 3 exact ⟨[], (List.append_nil _).symm, by simp⟩
  exact ⟨t.stored, rfl, fun _ h => h⟩

end Tracer

/-! ## Calls one at a time -/

/-- The spans stored and the spans handed out so far are distinct spans the tracer started. -/
structure Ledger (t : Tracer) (out : List Span) : Prop where
  nodup : ((t.stored ++ out).map Span.id).Nodup
  lt : ∀ sp ∈ t.stored ++ out, sp.id < t.nextId

namespace Ledger

variable {t : Tracer} {out : List Span}

/-- The ledger depends only on the stored spans and the next span id. -/
theorem of_eq {t' : Tracer} (hl : Ledger t out) (hs : t'.stored = t.stored)
    (hn : t'.nextId = t.nextId) : Ledger t' out :=
  ⟨hs ▸ hl.nodup, hs ▸ hn ▸ hl.lt⟩

/-- A span just started has an id no stored or handed-out span has. -/
theorem save (hl : Ledger t out) (key name : String) : Ledger (t.save key name) out := by
  have hsub : List.Sublist ((t.spans.erase key).entries.map Sigma.snd ++ out) (t.stored ++ out) :=
    (Tracer.erase_sublist key).append_right out
  have hfresh : ∀ sp ∈ (t.spans.erase key).entries.map Sigma.snd ++ out, sp.id < t.nextId :=
    fun sp hsp => hl.lt sp (hsub.subset hsp)
  constructor
  · rw [Tracer.stored_save, List.cons_append, List.map_cons, List.nodup_cons]
    refine ⟨fun hm => ?_, hl.nodup.sublist (hsub.map _)⟩
    obtain ⟨sp, hsp, hid⟩ := List.mem_map.1 hm
    exact absurd (hfresh sp hsp) (by simp [hid])
  · simp only [Tracer.stored_save, List.cons_append, List.mem_cons, forall_eq_or_imp]
    exact ⟨Nat.lt_succ_self _, fun sp hsp => Nat.lt_succ_of_lt (hfresh sp hsp)⟩

/-- A shift moves a span from the map to what was handed out. -/
theorem shift {k : String} {sp : Span} (hl : Ledger t out) (hk : t.spans.lookup k = some sp) :
    Ledger { t with spans := t.spans.erase k } (out ++ [sp]) := by
  obtain ⟨l₁, l₂, hst, her⟩ := Tracer.stored_split hk
  have hperm : List.Perm ((t.spans.erase k).entries.map Sigma.snd ++ (out ++ [sp]))
      (t.stored ++ out) := by
    rw [her, hst]
    simp only [List.append_assoc, List.cons_append]
    exact List.Perm.append_left l₁ (by simpa using List.perm_append_singleton sp (l₂ ++ out))
  exact ⟨(hperm.map _).nodup_iff.2 hl.nodup, fun sp' h' => hl.lt sp' (hperm.subset h')⟩

/-- Every call keeps the ledger, with the spans it hands out added to those handed out. -/
theorem call {t' : Tracer} {o : List Span} {c : Call} (hl : Ledger t out)
    (h : t.call c = .ok (t', o)) : Ledger t' (out ++ o) := by
  rcases Tracer.call_cases h with ⟨en, rfl, rfl⟩ | ⟨key, name, rfl, rfl⟩ |
    ⟨k, sp, hk, rfl, rfl⟩ | ⟨rfl, rfl⟩
  · rw [List.append_nil]
    exact hl.of_eq rfl rfl
  · simpa using hl.save key name
  · exact hl.shift hk
  · simpa using (hl.of_eq rfl rfl : Ledger t.FinishSpans out)

/-- Every run of calls from program start keeps the ledger. -/
theorem of_run {calls : List Call} (h : Tracer.init.run calls = .ok (t, out)) : Ledger t out := by
  simpa using runSteps_inv (fun _ _ _ _ _ hl hc => call hl hc) calls
    (⟨List.nodup_nil, by simp [Tracer.init, Tracer.stored]⟩ : Ledger Tracer.init []) h

end Ledger

/-- In a run of calls that do not overlap, from program start, `ShiftSpanByKey` hands no span out
twice, and every span it hands out was started and is no longer stored. -/
theorem shifted_once {calls : List Call} {t : Tracer} {out : List Span}
    (h : Tracer.init.run calls = .ok (t, out)) :
    (out.map Span.id).Nodup ∧ ∀ sp ∈ out, sp.id < t.nextId ∧ sp ∉ t.stored := by
  obtain ⟨hnd, hlt⟩ := Ledger.of_run h
  rw [List.map_append] at hnd
  refine ⟨hnd.of_append_right, fun sp hsp => ⟨hlt sp (by simp [hsp]), fun hst => ?_⟩⟩
  exact List.disjoint_of_nodup_append hnd (List.mem_map_of_mem _ hst)
    (List.mem_map_of_mem _ hsp)

/-- Two calls of `ShiftSpanByKey "a"` after one `StartSaveSpan` of a span named "a": only the
first gets it. -/
theorem shifted_once_save_shift_shift :
    let calls := [.setup ⟨true⟩, .startSaveSpan ⟨[(StoreLabelId, .str "a")], none⟩,
      .shiftSpanByKey "a", .shiftSpanByKey "a"]
    ∃ t out, Tracer.init.run calls = .ok (t, out) ∧ out = [⟨0, "a"⟩] ∧
      (out.map Span.id).Nodup ∧ ∀ sp ∈ out, sp.id < t.nextId ∧ sp ∉ t.stored :=
  by
    intro calls
    exact ⟨_, _, rfl, rfl, @shifted_once calls _ _ rfl⟩

/-! ## A span pushed out of the map -/

/-- A span the tracer started that the map no longer holds. -/
structure Gone (sp : Span) (t : Tracer) : Prop where
  not_stored : sp ∉ t.stored
  lt : sp.id < t.nextId

namespace Gone

variable {sp : Span} {t t' : Tracer}

/-- No call stores a span the map no longer holds, or hands it out. -/
theorem call {c : Call} {o : List Span} (hg : Gone sp t) (h : t.call c = .ok (t', o)) :
    Gone sp t' ∧ sp ∉ o := by
  rcases Tracer.call_cases h with ⟨en, rfl, rfl⟩ | ⟨key, name, rfl, rfl⟩ |
    ⟨k, sp', hk, rfl, rfl⟩ | ⟨rfl, rfl⟩
  · exact ⟨⟨hg.not_stored, hg.lt⟩, List.not_mem_nil _⟩
  · refine ⟨⟨?_, Nat.lt_succ_of_lt hg.lt⟩, List.not_mem_nil _⟩
    rw [Tracer.stored_save, List.mem_cons, not_or]
    exact ⟨fun he => absurd hg.lt (by simp [he]),
      fun hm => hg.not_stored ((Tracer.erase_sublist key).subset hm)⟩
  · refine ⟨⟨fun hm => hg.not_stored ((Tracer.erase_sublist k).subset hm), hg.lt⟩, ?_⟩
    rw [List.mem_singleton]
    rintro rfl
    exact hg.not_stored (Tracer.mem_stored_of_lookup hk)
  · exact ⟨⟨hg.not_stored, hg.lt⟩, List.not_mem_nil _⟩

/-- No run from a state whose map no longer holds a span hands it out or finishes it. -/
theorem run {calls : List Call} {out : List Span} (hg : Gone sp t)
    (h : t.run calls = .ok (t', out)) :
    sp ∉ out ∧ ∃ L, t'.finished = t.finished ++ L ∧ sp ∉ L := by
  have := runSteps_inv (P := fun t₁ out₁ =>
      Gone sp t₁ ∧ sp ∉ out₁ ∧ ∃ L, t₁.finished = t.finished ++ L ∧ sp ∉ L)
    (fun t₁ out₁ c t₂ o ⟨hg₁, hout, L, hL, hsp⟩ hc => by
      obtain ⟨hg₂, ho⟩ := hg₁.call hc
      obtain ⟨L', hL', hsub⟩ := Tracer.call_finished hc
      exact ⟨hg₂, by simp [hout, ho], L ++ L', by rw [hL', hL, List.append_assoc],
        by simpa [hsp] using fun h => hg₁.not_stored (hsub sp h)⟩)
    calls ⟨hg, List.not_mem_nil _, [], (List.append_nil _).symm, List.not_mem_nil _⟩ h
  simpa using this.2

end Gone

/-- In a state reached from program start, with tracing on, a `StartSaveSpan` that saves under a
key that holds a span pushes that span out for good: no later call hands it out, and no later
`FinishSpans` finishes it. -/
theorem overwritten_span_lost {calls calls' : List Call} {t t' : Tracer} {out out' : List Span}
    {ctx : Context} {name key : String} {sp : Span}
    (hr : Tracer.init.run calls = .ok (t, out)) (hen : t.Enabled = true)
    (hid : ctx.Value StoreLabelId = some (.str name))
    (hkey : Tracer.saveKey name (ctx.Value StoreLabelMeta) = .ok key)
    (hsp : t.spans.lookup key = some sp)
    (hr' : t.run (.startSaveSpan ctx :: calls') = .ok (t', out')) :
    sp ∉ out' ∧ ∃ L, t'.finished = t.finished ++ L ∧ sp ∉ L := by
  have hl := Ledger.of_run hr
  obtain ⟨l₁, l₂, hst, her⟩ := Tracer.stored_split hsp
  have hlt : sp.id < t.nextId := hl.lt sp (by simp [hst])
  have hgone : Gone sp (t.save key name) := by
    refine ⟨?_, Nat.lt_succ_of_lt hlt⟩
    rw [Tracer.stored_save, her, List.mem_cons, not_or]
    refine ⟨fun he => absurd hlt (by simp [he]), fun hm => ?_⟩
    have hnd : ((l₁ ++ sp :: l₂).map Span.id).Nodup := by
      have := hl.nodup
      rw [List.map_append, hst] at this
      exact this.of_append_left
    rw [List.map_append, List.map_cons, List.nodup_middle, List.nodup_cons,
      ← List.map_append] at hnd
    exact hnd.1 (List.mem_map_of_mem _ hm)
  have hstep : t.call (.startSaveSpan ctx) = .ok (t.save key name, []) := by
    simp only [Tracer.call, Tracer.StartSaveSpan_saves hen hid hkey]
    rfl
  rw [Tracer.run, runSteps_cons_ok hstep] at hr'
  cases hrest : runSteps Tracer.call (t.save key name) calls' with
  | error => rw [hrest] at hr'; cases hr'
  | ok q =>
    rw [hrest] at hr'
    cases hr'
    simpa using hgone.run hrest

/-- "a" saved twice: the first span is neither handed out by the shift of "a" nor finished. -/
theorem overwritten_span_lost_resave :
    let ctx : Context := ⟨[(StoreLabelId, .str "a")], none⟩
    ∃ t t' out out', Tracer.init.run [.setup ⟨true⟩, .startSaveSpan ctx] = .ok (t, out) ∧
      t.spans.lookup "a" = some ⟨0, "a"⟩ ∧
      t.run [.startSaveSpan ctx, .finishSpans, .shiftSpanByKey "a"] = .ok (t', out') ∧
      out' = [⟨1, "a"⟩] ∧ t'.finished = [⟨1, "a"⟩] ∧
      ⟨0, "a"⟩ ∉ out' ∧ ∃ L, t'.finished = t.finished ++ L ∧ (⟨0, "a"⟩ : Span) ∉ L := by
  intro ctx
  exact ⟨_, _, _, _, rfl, rfl, rfl, rfl, rfl,
    @overwritten_span_lost [.setup ⟨true⟩, .startSaveSpan ctx]
      [.finishSpans, .shiftSpanByKey "a"] _ _ _ _ ctx "a" "a" ⟨0, "a"⟩ rfl rfl rfl rfl rfl rfl⟩

/-! ## Calls at once -/

/-- One call run alone is its steps run with no other call in progress. -/
theorem run_call_events (t : Tracer) (c : Call) :
    Sys.run ⟨t, []⟩ c.events = (t.call c).map fun r => (⟨r.1, []⟩, r.2) := by
  cases c with
  | startSaveSpan ctx =>
    show ((t.StartSaveSpan ctx).bind _).bind _ = ((t.StartSaveSpan ctx).bind _).map _
    cases t.StartSaveSpan ctx <;> rfl
  | shiftSpanByKey k =>
    show Except.ok ((⟨t.shiftDelete k (t.shiftLoad k), []⟩ : Sys),
      [] ++ ((t.shiftLoad k).toList ++ [])) = _
    rw [Tracer.call, Tracer.ShiftSpanByKey_eq, List.append_nil, List.nil_append]
    rfl
  | setup | finishSpans => rfl

/-- A run of calls one at a time is the run of calls at once in which every shift makes its
`Delete` right after its `Load`: the same state, no shift left in progress, and the same spans
handed out. -/
theorem run_events (t : Tracer) (calls : List Call) :
    Sys.run ⟨t, []⟩ (calls.flatMap Call.events) = (t.run calls).map fun r => (⟨r.1, []⟩, r.2) := by
  induction calls generalizing t with
  | nil => rfl
  | cons c cs ih =>
    show runSteps Sys.step ⟨t, []⟩ (c.events ++ cs.flatMap Call.events) =
      (runSteps Tracer.call t (c :: cs)).map _
    rw [runSteps_append, runSteps_cons]
    change (Sys.run ⟨t, []⟩ c.events).bind _ = _
    rw [run_call_events]
    cases t.call c with
    | error => rfl
    | ok r =>
      show (Sys.run ⟨r.1, []⟩ (cs.flatMap Call.events)).bind _ = ((r.1.run cs).bind _).map _
      rw [ih]
      cases r.1.run cs <;> rfl

end Swarm.Tracing
