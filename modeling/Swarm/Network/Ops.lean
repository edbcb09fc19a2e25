import Swarm.Network.Table

/-!
# Register, On and Off

The operations of network/kademlia.go that change the table: `RegisterCapabilityIndex`,
`Register`, `On` and `Off`, with the capability-index loops `addToCapabilityIndex` and
`removeFromCapabilityIndex` they call. A Go panic is an `Except.error`; an error that `Register`
returns is the second component of its result, with the state it leaves. `IsSameAs`, which the
capability package defines, is the parameter `isSameAs`. A run is a sequence of calls from one
state (`Run`), each call allowed by a predicate on the state it is made in.
-/

namespace Swarm.Network

open Pot

/-- `pot.Add` on a pot pointer: a nil pointer panics in `clone`. -/
def addPtr (t : Option (Pot Entry)) (val : Entry) : Except String (Option (Pot Entry)) :=
  match t with
  | none => throw nilDeref
  | some t => pure (some (Add t val pof).1)

/-- `pot.Swap` on a pot pointer: a nil pointer panics reading its pin. -/
def swapPtr {m : Type → Type} [Monad m] [MonadExceptOf String m] (t : Option (Pot Entry))
    (key : Key 256) (f : Option Entry → m (Option Entry)) : m (SwapResult Entry) :=
  match t with
  | none => throw nilDeref
  | some t => swap t key pof f

/-- A loop over the capability indices that replaces each by what `f` makes of it; a panic ends
it. -/
def updateIndices (f : CapabilityIndex → Except String CapabilityIndex) :
    List (String × CapabilityIndex) → Except String (List (String × CapabilityIndex))
  | [] => pure []
  | (s, idx) :: rest => do
    let idx ← f idx
    let rest ← updateIndices f rest
    pure ((s, idx) :: rest)

/-- An update of every index keeps the names of the indices. -/
theorem updateIndices_keys {f : CapabilityIndex → Except String CapabilityIndex} :
    ∀ {l l' : List (String × CapabilityIndex)}, updateIndices f l = .ok l' →
      l'.map Prod.fst = l.map Prod.fst
  | [], l', h => by cases h; rfl
  | (s, idx) :: rest, l', h => by
    simp only [updateIndices, bind, Except.bind] at h
    split at h
    · cases h
    · split at h
      · cases h
      · cases h
        simp [updateIndices_keys ‹_›]

namespace Kademlia

/-- Runs `updateIndices` on the capability indices of `k`. -/
def updateIndicesM (k : Kademlia) (f : CapabilityIndex → Except String CapabilityIndex) :
    Except String Kademlia :=
  match h : updateIndices f k.capabilityIndex with
  | .ok l => pure { k with
      capabilityIndex := l
      capabilityIndex_nodup := by rw [updateIndices_keys h]; exact k.capabilityIndex_nodup }
  | .error e => throw e

/-- `RegisterCapabilityIndex`: adds an empty index named `s`, unless the name is empty or taken;
the second component is the error returned. -/
def RegisterCapabilityIndex (k : Kademlia) (s : String) (c : Capability) :
    Kademlia × Option String :=
  if s = "" then (k, some "Cannot add index with empty string key")
  else if h : s ∈ k.capabilityIndex.map Prod.fst then
    (k, some ("Capability index \x27" ++ s ++ "\x27 already exists"))
  else
    ({ k with
      capabilityIndex := k.capabilityIndex ++ [(s, NewCapabilityIndex c)]
      capabilityIndex_nodup := by
        rw [List.map_append, List.nodup_append]
        exact ⟨k.capabilityIndex_nodup, List.nodup_singleton s, List.disjoint_singleton.2 h⟩ },
      none)

section Capabilities

variable (isSameAs : Capability → Capability → Bool)

/-- One turn of `addToCapabilityIndex`'s loop over the capabilities of the address `eAddr`, on
one index: when the capability `vCap` has the index's id and `IsSameAs` the index's, the peer is
added to the index's conns (a `*Peer`, `.inl`) or its address to the index's addrs (an `*entry`,
`.inr`). -/
def addCapability (p : Peer ⊕ Entry) (eAddr : BzzAddr) (now : Int) (idx : CapabilityIndex)
    (vCap : Capability) : Except String CapabilityIndex :=
  match idx.capability with
  | none => throw nilDeref
  | some c =>
    if c.id ≠ vCap.id then pure idx
    else if isSameAs vCap c then
      match p with
      | .inl ePeer => do
        let conns ← addPtr idx.conns (newEntryFromPeer ePeer now)
        pure { idx with conns := conns }
      | .inr _ => do
        let addrs ← addPtr idx.addrs (newEntryFromBzzAddress eAddr now)
        pure { idx with addrs := addrs }
    else pure idx

/-- The body of `addToCapabilityIndex` for one index: `addCapability` for every capability of the
address. -/
def addToIndex (p : Peer ⊕ Entry) (now : Int) (idx : CapabilityIndex) :
    Except String CapabilityIndex :=
  let eAddr := match p with
    | .inl ePeer => ePeer.bzzAddr
    | .inr e => e.bzzAddr
  eAddr.capabilities.foldlM (addCapability isSameAs p eAddr now) idx

/-- `addToCapabilityIndex`. -/
def addToCapabilityIndex (k : Kademlia) (p : Peer ⊕ Entry) (now : Int) : Except String Kademlia :=
  k.updateIndicesM (addToIndex isSameAs p now)

end Capabilities

/-- The body of `removeFromCapabilityIndex` for one index: a `*Peer` (`ok`) is removed from the
index's conns, and unless `disconnectOnly` the address from its addrs, each only when found. -/
def removeFromIndex (ok : Bool) (eAddr : BzzAddr) (disconnectOnly : Bool)
    (idx : CapabilityIndex) : Except String CapabilityIndex := do
  let idx ← if ok then do
      let r ← swapPtr idx.conns eAddr.oAddr fun _ => pure none
      pure (if r.2.2.1 then { idx with conns := r.1 } else idx)
    else pure idx
  if !disconnectOnly then do
    let r ← swapPtr idx.addrs eAddr.oAddr fun _ => pure none
    pure (if r.2.2.1 then { idx with addrs := r.1 } else idx)
  else pure idx

/-- `removeFromCapabilityIndex`. -/
def removeFromCapabilityIndex (k : Kademlia) (p : Peer ⊕ Entry) (disconnectOnly : Bool) :
    Except String Kademlia :=
  match p with
  | .inl ePeer => k.updateIndicesM (removeFromIndex true ePeer.bzzAddr disconnectOnly)
  | .inr e => if disconnectOnly then pure k
    else k.updateIndicesM (removeFromIndex false e.bzzAddr disconnectOnly)

/-- The default index with its conns replaced. -/
def setConns (k : Kademlia) (conns : Option (Pot Entry)) : Kademlia :=
  { k with defaultIndex := { k.defaultIndex with conns := conns } }

/-- The default index with its addrs replaced. -/
def setAddrs (k : Kademlia) (addrs : Option (Pot Entry)) : Kademlia :=
  { k with defaultIndex := { k.defaultIndex with addrs := addrs } }

/-- The four lowercase hexadecimal digits of `%x`, four bits each. -/
def hexBits : Bits → String
  | b₀ :: b₁ :: b₂ :: b₃ :: rest =>
    (Nat.digitChar (8 * b₀.toNat + 4 * b₁.toNat + 2 * b₂.toNat + b₃.toNat)).toString ++ hexBits rest
  | _ => ""

/-- The callback of `Register`'s `Swap`: a new offline entry when the address is unknown or known
under another underlay address, the stored entry otherwise. -/
def registerCallback (p : BzzAddr) (now : Int) : Option Entry → Option Entry
  | none => some (newEntryFromBzzAddress p now)
  | some e => if e.bzzAddr.uAddr ≠ p.uAddr then some (newEntryFromBzzAddress p now) else some e

section Ops

variable (isSameAs : Capability → Capability → Bool)

/-- The loop of `Register` over the addresses, then `setNeighbourhoodDepth`; the error returned
when an address is the base address, with the state left by the addresses before it. -/
def registerLoop (k : Kademlia) (now : Int) : List BzzAddr → Except String (Kademlia × Option String)
  | [] => pure (k.setNeighbourhoodDepth, none)
  | p :: peers =>
    if p.oAddr = k.base then pure (k, some ("add peers: " ++ hexBits k.base.bits ++ " is self"))
    else do
      let r ← swapPtr k.defaultIndex.addrs p.oAddr fun v => pure (registerCallback p now v)
      let k ← (k.setAddrs r.1).addToCapabilityIndex isSameAs (.inr (newEntryFromBzzAddress p now)) now
      registerLoop k now peers

/-- `Register`, every call to `time.Now()` reading `now`. -/
def Register (k : Kademlia) (peers : List BzzAddr) (now : Int) :
    Except String (Kademlia × Option String) :=
  registerLoop isSameAs k now peers

/-- The callback of `On`'s `Swap` on conns, which sets `ins` when the address is not live. -/
def onCallback (peerEntry : Entry) : Option Entry → StateT Bool (Except String) (Option Entry)
  | none => do set true; pure (some peerEntry)
  | some v => pure (some v)

/-- The end of `On`: the saturation depth is recomputed and stored, with whether it changed, and
the neighbourhood depths are set. -/
def onFinish (k : Kademlia) : Kademlia × UInt8 × Bool :=
  let depth := toUInt8 k.saturation
  let changed := depth ≠ k.saturationDepth
  let k := { k with saturationDepth := depth }
  (k.setNeighbourhoodDepth, k.saturationDepth, changed)

/-- The step of `On` for a peer that joined conns: its address entry in addrs is replaced by one
that records the connection. -/
def onAddrs (k : Kademlia) (p : Peer) (now : Int) : Except String Kademlia := do
  let a : Entry := { newEntryFromBzzAddress p.bzzAddr now with conn := some p }
  let r ← swapPtr k.defaultIndex.addrs a.bzzAddr.oAddr fun _ => pure (some a)
  pure (k.setAddrs r.1)

/-- `On`: the peer joins conns unless its address is live, joins the capability indices it
matches, and when it joined conns, its address entry records the connection (`onAddrs`); then
`onFinish`. -/
def On (k : Kademlia) (p : Peer) (now : Int) : Except String (Kademlia × UInt8 × Bool) := do
  let (r, ins) ← (swapPtr k.defaultIndex.conns p.bzzAddr.oAddr
    (onCallback (newEntryFromPeer p now))).run false
  let k ← (k.setConns r.1).addToCapabilityIndex isSameAs (.inl p) now
  onFinish <$> if ins then onAddrs k p now else pure k

end Ops

/-- The callback of `Off`'s `Swap` on addrs: a new offline entry; a missing entry panics. The
message's `%v` of the peer is its `id` here. -/
def offCallback (p : Peer) (now : Int) : Option Entry → Except String (Option Entry)
  | none => throw ("connected peer not found " ++ toString p.id)
  | some _ => pure (some (newEntryFromBzzAddress p.bzzAddr now))

/-- `Off`: the address entry in addrs is replaced by an offline one, and the address leaves conns
and the conns of every capability index. -/
def Off (k : Kademlia) (p : Peer) (now : Int) : Except String Kademlia := do
  let r ← swapPtr k.defaultIndex.addrs p.bzzAddr.oAddr (offCallback p now)
  let k := k.setAddrs r.1
  let r ← swapPtr k.defaultIndex.conns p.bzzAddr.oAddr fun _ => pure none
  let k ← (k.setConns r.1).removeFromCapabilityIndex (.inl p) true
  pure k.setNeighbourhoodDepth

end Kademlia

/-- `NewKademlia` on base address `addr` with the capabilities `fullCapability` and
`lightCapability`, which are not under src. -/
def NewKademlia (addr : Key 256) (params : KadParams) (fullCapability lightCapability : Capability) :
    Kademlia :=
  let k : Kademlia := ⟨[], List.nodup_nil, NewDefaultIndex, params, addr, 0, 0⟩
  ((k.RegisterCapabilityIndex "full" fullCapability).1.RegisterCapabilityIndex "light"
    lightCapability).1

/-! ## What the steps of an operation do -/

/-- A bind that returns a result ran its first part to a value. -/
theorem bind_eq_ok {ε α β : Type} {x : Except ε α} {f : α → Except ε β} {b : β}
    (h : x >>= f = .ok b) : ∃ a, x = .ok a ∧ f a = .ok b := by
  cases x with
  | error e => cases h
  | ok a => exact ⟨a, rfl, h⟩

namespace Kademlia

variable {k k' : Kademlia}

@[simp] theorem setConns_defaultIndex (conns : Option (Pot Entry)) :
    (k.setConns conns).defaultIndex = { k.defaultIndex with conns := conns } := rfl

@[simp] theorem setAddrs_defaultIndex (addrs : Option (Pot Entry)) :
    (k.setAddrs addrs).defaultIndex = { k.defaultIndex with addrs := addrs } := rfl

@[simp] theorem setConns_capabilityIndex (conns : Option (Pot Entry)) :
    (k.setConns conns).capabilityIndex = k.capabilityIndex := rfl

@[simp] theorem setAddrs_capabilityIndex (addrs : Option (Pot Entry)) :
    (k.setAddrs addrs).capabilityIndex = k.capabilityIndex := rfl

@[simp] theorem setConns_params (conns : Option (Pot Entry)) : (k.setConns conns).params = k.params :=
  rfl

@[simp] theorem setAddrs_params (addrs : Option (Pot Entry)) : (k.setAddrs addrs).params = k.params :=
  rfl

@[simp] theorem setConns_base (conns : Option (Pot Entry)) : (k.setConns conns).base = k.base := rfl

@[simp] theorem setAddrs_base (addrs : Option (Pot Entry)) : (k.setAddrs addrs).base = k.base := rfl

@[simp] theorem setNeighbourhoodDepth_defaultIndex :
    k.setNeighbourhoodDepth.defaultIndex = k.defaultIndex := rfl

@[simp] theorem setNeighbourhoodDepth_params : k.setNeighbourhoodDepth.params = k.params := rfl

@[simp] theorem setNeighbourhoodDepth_base : k.setNeighbourhoodDepth.base = k.base := rfl

@[simp] theorem setNeighbourhoodDepth_nDepth :
    k.setNeighbourhoodDepth.nDepth =
      depthForPot k.defaultIndex.conns k.params.neighbourhoodSize k.base := rfl

@[simp] theorem setNeighbourhoodDepth_capabilityIndex :
    k.setNeighbourhoodDepth.capabilityIndex = k.capabilityIndex.map fun e =>
      (e.1, { e.2 with depth := capabilityDepthForPot e.2 k.params.neighbourhoodSize k.base }) :=
  rfl

/-- A loop over the capability indices changes nothing else. -/
theorem updateIndicesM_ok {f : CapabilityIndex → Except String CapabilityIndex}
    (h : k.updateIndicesM f = .ok k') :
    updateIndices f k.capabilityIndex = .ok k'.capabilityIndex ∧
      k'.defaultIndex = k.defaultIndex ∧ k'.params = k.params ∧ k'.base = k.base ∧
      k'.nDepth = k.nDepth := by
  unfold updateIndicesM at h
  split at h
  · cases h
    exact ⟨‹_›, rfl, rfl, rfl, rfl⟩
  · cases h

/-- `addToCapabilityIndex` updates every capability index and nothing else of the table. -/
theorem addToCapabilityIndex_ok {isSameAs : Capability → Capability → Bool} {p : Peer ⊕ Entry}
    {now : Int} (h : k.addToCapabilityIndex isSameAs p now = .ok k') :
    updateIndices (addToIndex isSameAs p now) k.capabilityIndex = .ok k'.capabilityIndex ∧
      k'.defaultIndex = k.defaultIndex ∧ k'.params = k.params ∧ k'.base = k.base ∧
      k'.nDepth = k.nDepth :=
  updateIndicesM_ok h

/-- `removeFromCapabilityIndex` of a peer updates every capability index and nothing else of the
table. -/
theorem removeFromCapabilityIndex_peer_ok {p : Peer} {disconnectOnly : Bool}
    (h : k.removeFromCapabilityIndex (.inl p) disconnectOnly = .ok k') :
    updateIndices (removeFromIndex true p.bzzAddr disconnectOnly) k.capabilityIndex =
        .ok k'.capabilityIndex ∧
      k'.defaultIndex = k.defaultIndex ∧ k'.params = k.params ∧ k'.base = k.base ∧
      k'.nDepth = k.nDepth :=
  updateIndicesM_ok h

/-- `RegisterCapabilityIndex` changes only the list of indices, and appends a new index of its
capability when the name is new. -/
theorem RegisterCapabilityIndex_fst (s : String) (c : Capability) :
    (k.RegisterCapabilityIndex s c).1.defaultIndex = k.defaultIndex ∧
      (k.RegisterCapabilityIndex s c).1.params = k.params ∧
      (k.RegisterCapabilityIndex s c).1.base = k.base ∧
      (k.RegisterCapabilityIndex s c).1.nDepth = k.nDepth ∧
      ((k.RegisterCapabilityIndex s c).1.capabilityIndex = k.capabilityIndex ∨
        s ∉ k.capabilityIndex.map Prod.fst ∧
        (k.RegisterCapabilityIndex s c).1.capabilityIndex =
          k.capabilityIndex ++ [(s, NewCapabilityIndex c)]) := by
  unfold RegisterCapabilityIndex
  split
  · exact ⟨rfl, rfl, rfl, rfl, .inl rfl⟩
  · split
    · exact ⟨rfl, rfl, rfl, rfl, .inl rfl⟩
    · exact ⟨rfl, rfl, rfl, rfl, .inr ⟨‹_›, rfl⟩⟩

end Kademlia

@[simp] theorem onFinish_defaultIndex (k : Kademlia) :
    (Kademlia.onFinish k).1.defaultIndex = k.defaultIndex :=
  rfl

/-! ## `Swap` on the table's pots -/

/-- A valid pot that stores a value has a pin. -/
theorem valid_pin_isSome {t : Pot Entry} (ht : Valid t) {key : Key 256} {v : Entry}
    (hv : lookup t key = some v) : t.pin.isSome := by
  rcases ht with rfl | ⟨-, hwf, -⟩
  · simp [lookup, empty, newPot] at hv
  · obtain ⟨x, hx⟩ := hwf.pin_isSome
    simp [hx]

/-- A `Swap` at the root that stores a value returns a pot. -/
theorem SwapRoot.exists_some {t : Pot Entry} {key : Key 256} {new : Option Entry}
    {r : Option (Pot Entry)} (R : SwapRoot t key new r) (hnew : new.isSome) : ∃ r', r = some r' := by
  cases r with
  | none => simp [(R.nil rfl).2] at hnew
  | some r' => exact ⟨r', rfl⟩

/-- `Swap` on a pot that stores a value under the key returns a pot. -/
theorem SwapRoot.exists_some_of_lookup {t : Pot Entry} {key : Key 256} {new : Option Entry}
    {r : Option (Pot Entry)} (R : SwapRoot t key new r) (hl : (lookup t key).isSome) :
    ∃ r', r = some r' := by
  cases r with
  | none => simp [(R.nil rfl).1, lookup, empty, newPot] at hl
  | some r' => exact ⟨r', rfl⟩

section SwapPtr

variable {t : Pot Entry} (ht : Valid t) (key : Key 256)

include ht

/-- `swapPtr` on a valid pot with a callback that answers `g` of what it is given. -/
theorem swapPtr_pure (g : Option Entry → Option Entry)
    (hg : ∀ w, g (lookup t key) = some w → address w = key) :
    ∃ r po, swapPtr (some t) key (fun v => (pure (g v) : Except String (Option Entry))) =
        .ok (r, po, (lookup t key).isSome, decide (g (lookup t key) ≠ lookup t key)) ∧
      SwapRoot t key (g (lookup t key)) r := by
  obtain ⟨r, po, hr, R⟩ := swap_root (m := Except String) ht key (g (lookup t key)) hg
  refine ⟨r, po, ?_, R⟩
  simp only [swapPtr, pof]
  rw [swap_bind_root ht, pure_bind]
  exact hr

/-- `Off`'s `Swap` on addrs, where the address is stored: its entry becomes offline. -/
theorem swapPtr_offCallback (p : Peer) (now : Int) {e : Entry} (he : lookup t key = some e)
    (hkey : p.bzzAddr.oAddr = key) :
    ∃ r po, swapPtr (some t) key (Kademlia.offCallback p now) = .ok (r, po, true, decide (some (newEntryFromBzzAddress p.bzzAddr now) ≠ lookup t key)) ∧
      SwapRoot t key (some (newEntryFromBzzAddress p.bzzAddr now)) r := by
  obtain ⟨r, po, hr, R⟩ := swap_root (m := Except String) ht key
    (some (newEntryFromBzzAddress p.bzzAddr now)) (fun w hw => by cases hw; exact hkey)
  refine ⟨r, po, ?_, R⟩
  simp only [swapPtr, pof]
  rw [swap_bind_root ht, he]
  simpa [he, Kademlia.offCallback] using hr

/-- `On`'s `Swap` on conns: it stores the peer's entry and sets `ins` when the address is not
live, and leaves the pot as it is otherwise. -/
theorem swapPtr_onCallback (pe : Entry) (hkey : address pe = key) :
    ∃ r po, (swapPtr (some t) key (Kademlia.onCallback pe)).run false =
        .ok ((r, po, (lookup t key).isSome, decide ((lookup t key).isNone)), (lookup t key).isNone) ∧
      SwapRoot t key (if lookup t key = none then some pe else lookup t key) r := by
  cases hl : lookup t key with
  | none =>
    obtain ⟨r, po, hr, R⟩ := swap_root (m := StateT Bool (Except String)) ht key (some pe)
      (fun w hw => by cases hw; exact hkey)
    refine ⟨r, po, ?_, by simpa using R⟩
    simp only [swapPtr, pof]
    rw [swap_bind_root ht, hl]
    simp only [hl] at hr
    simp [Kademlia.onCallback, hr, StateT.run_bind]
    rfl
  | some v =>
    obtain ⟨r, po, hr, R⟩ := swap_root (m := StateT Bool (Except String)) ht key (some v)
      (fun w hw => by cases hw; simpa using List.find?_some hl)
    refine ⟨r, po, ?_, by simpa using R⟩
    simp only [swapPtr, pof]
    rw [swap_bind_root ht, hl]
    simp only [hl] at hr
    simp [Kademlia.onCallback, hr]
    rfl

end SwapPtr

/-- On a valid default addrs pot, the addrs update of `On` swaps the peer's entry in at its overlay
address. -/
theorem Kademlia.onAddrs_ok {k k' : Kademlia} {p : Peer} {now : Int} {u : Pot Entry}
    (ha : k.defaultIndex.addrs = some u) (hu : Valid u) (h : k.onAddrs p now = .ok k') :
    ∃ u', k' = k.setAddrs (some u') ∧
      SwapRoot u p.bzzAddr.oAddr (some ⟨p.bzzAddr, some p, now, 0⟩) (some u') := by
  unfold onAddrs at h
  obtain ⟨res, h1, h⟩ := bind_eq_ok h
  simp only [ha, newEntryFromBzzAddress] at h1
  obtain ⟨r, po, hr, R⟩ := swapPtr_pure hu p.bzzAddr.oAddr (fun _ => some ⟨p.bzzAddr, some p, now, 0⟩)
    (fun w hw => by cases hw; rfl)
  rw [hr] at h1
  cases h1
  obtain ⟨u', rfl⟩ := SwapRoot.exists_some R rfl
  cases h
  exact ⟨u', rfl, R⟩

/-! ## Runs -/

/-- A call of the table's API, with the clock reading of the call. -/
inductive Call where
  | registerCapabilityIndex (s : String) (c : Capability)
  | register (peers : List BzzAddr) (now : Int)
  | on (p : Peer) (now : Int)
  | off (p : Peer) (now : Int)

/-- The state after a call; a panic has none. -/
def Kademlia.call (isSameAs : Capability → Capability → Bool) (k : Kademlia) :
    Call → Except String Kademlia
  | .registerCapabilityIndex s c => pure (k.RegisterCapabilityIndex s c).1
  | .register peers now => (·.1) <$> k.Register isSameAs peers now
  | .on p now => (·.1) <$> k.On isSameAs p now
  | .off p now => k.Off p now

/-- An overlay address is live: the default conns hold it. -/
def Kademlia.connected (k : Kademlia) (a : Key 256) : Bool :=
  match k.defaultIndex.conns with
  | none => false
  | some c => (lookup c a).isSome

/-- `Run isSameAs allowed k calls k'`: the calls, made in turn from `k`, each allowed in the state
it is made in and none panicking, lead to `k'`. -/
inductive Run (isSameAs : Capability → Capability → Bool) (allowed : Kademlia → Call → Prop) :
    Kademlia → List Call → Kademlia → Prop where
  | nil (k : Kademlia) : Run isSameAs allowed k [] k
  | snoc {k k' k'' : Kademlia} {calls : List Call} {c : Call} :
      Run isSameAs allowed k calls k' → allowed k' c → k'.call isSameAs c = .ok k'' →
      Run isSameAs allowed k (calls ++ [c]) k''

/-- The calls that take `Off` only of a live address. -/
def offLive (k : Kademlia) : Call → Prop
  | .off p _ => k.connected p.bzzAddr.oAddr = true
  | _ => True

namespace Run

variable {isSameAs : Capability → Capability → Bool} {allowed : Kademlia → Call → Prop}

/-- The last call of a run. -/
theorem snoc_inv {k k'' : Kademlia} {calls : List Call} {c : Call}
    (h : Run isSameAs allowed k (calls ++ [c]) k'') :
    ∃ k', Run isSameAs allowed k calls k' ∧ allowed k' c ∧ k'.call isSameAs c = .ok k'' := by
  generalize hl : calls ++ [c] = l at h
  cases h with
  | nil => simp at hl
  | snoc h' ha hc =>
    obtain ⟨rfl, hc'⟩ := List.append_inj' hl rfl
    cases hc'
    exact ⟨_, h', ha, hc⟩

/-- A run through a call is a run to the state the call is made in, the call, and a run from the
state it leads to. -/
theorem split {k k' : Kademlia} {pre post : List Call} {c : Call} :
    Run isSameAs allowed k (pre ++ c :: post) k' →
      ∃ k₁ k₂, Run isSameAs allowed k pre k₁ ∧ allowed k₁ c ∧ k₁.call isSameAs c = .ok k₂ ∧
        Run isSameAs allowed k₂ post k' := by
  induction post using List.reverseRecOn generalizing k' with
  | nil =>
    intro h
    obtain ⟨k₁, h₁, ha, hc⟩ := snoc_inv h
    exact ⟨k₁, k', h₁, ha, hc, .nil k'⟩
  | append_singleton post c' ih =>
    intro h
    rw [← List.cons_append, ← List.append_assoc] at h
    obtain ⟨k₃, h₃, ha, hc⟩ := snoc_inv h
    obtain ⟨k₁, k₂, h₁, ha₁, hc₁, h₂⟩ := ih h₃
    exact ⟨k₁, k₂, h₁, ha₁, hc₁, h₂.snoc ha hc⟩

/-- A sequence of calls leads to at most one state. -/
theorem deterministic {k k₁ k₂ : Kademlia} {calls : List Call}
    (h₁ : Run isSameAs allowed k calls k₁) (h₂ : Run isSameAs allowed k calls k₂) : k₁ = k₂ := by
  induction h₁ generalizing k₂ with
  | nil =>
    generalize hl : ([] : List Call) = l at h₂
    cases h₂ with
    | nil => rfl
    | snoc => simp at hl
  | snoc _ _ hc ih =>
    obtain ⟨k', h', -, hc'⟩ := snoc_inv h₂
    cases ih h'
    rw [hc] at hc'
    exact Except.ok.inj hc'

end Run

end Swarm.Network
