import Swarm.Network.Ops

/-!
# The signal of `On`

`On` publishes an `onOffPeerSignal` to the subscribers of the table: the peer, the order `po`
that its `Swap` on the default conns pot returned, and `on`. It does so after
`addToCapabilityIndex`, and before it records the connection in addrs. The conns pot is rooted
at a connected peer, or is the empty pot, not at the base address: its `Swap` returns the order
at the node where it inserted, and the first peer to come on is inserted at the root of the
empty pot, at order 0.

`Kademlia.onSignal` is what `On` publishes, computed by its first two steps. The main result,
`onSignal_new`, says that on a new table the signal of every peer carries order 0, whatever the
peer's proximity to the base.
-/

namespace Swarm.Network

open Pot

/-- `onOffPeerSignal`: the peer, the order published with it, and whether it came on (Go's `on`,
a token of Lean). -/
structure OnOffPeerSignal where
  peer : Peer
  po : Nat
  isOn : Bool

namespace Kademlia

variable (isSameAs : Capability → Capability → Bool)

/-- The signal `On(p)` publishes: its `Swap` on conns, then `addToCapabilityIndex`, then the
signal with the order the `Swap` returned. A panic before it leaves nothing published. -/
def onSignal (k : Kademlia) (p : Peer) (now : Int) : Except String OnOffPeerSignal := do
  let (r, _) ← (swapPtr k.defaultIndex.conns p.bzzAddr.oAddr
    (onCallback (newEntryFromPeer p now))).run false
  let _ ← (k.setConns r.1).addToCapabilityIndex isSameAs (.inl p) now
  pure ⟨p, r.2.1, true⟩

end Kademlia

variable {isSameAs : Capability → Capability → Bool}

/-! ## A new table -/

/-- A capability index that `addToCapabilityIndex` can grow without a panic: its capability and
its conns pot are set. -/
def IndexSet (idx : CapabilityIndex) : Prop := idx.capability.isSome ∧ idx.conns.isSome

/-- A loop whose every turn from a state with `P` returns one with `P` returns. -/
theorem foldlM_progress {α β : Type} {P : β → Prop} {f : β → α → Except String β}
    (hf : ∀ b a, P b → ∃ b', f b a = .ok b' ∧ P b') :
    ∀ (l : List α) {b : β}, P b → ∃ b', l.foldlM f b = .ok b' ∧ P b'
  | [], b, hb => ⟨b, rfl, hb⟩
  | a :: l, b, hb => by
    obtain ⟨b₁, h₁, hb₁⟩ := hf b a hb
    obtain ⟨b', h', hb'⟩ := foldlM_progress hf l hb₁
    exact ⟨b', by rw [List.foldlM_cons, h₁]; exact h', hb'⟩

/-- Adding a peer to an index whose capability and conns are set returns an index with both set. -/
theorem addCapability_set {p : Peer} {now : Int} {idx : CapabilityIndex} (vCap : Capability)
    (h : IndexSet idx) :
    ∃ idx', Kademlia.addCapability isSameAs (.inl p) p.bzzAddr now idx vCap = .ok idx' ∧
      IndexSet idx' := by
  obtain ⟨⟨c, hc⟩, ⟨t, ht⟩⟩ := And.intro (Option.isSome_iff_exists.1 h.1)
    (Option.isSome_iff_exists.1 h.2)
  unfold Kademlia.addCapability
  simp only [hc]
  split_ifs
  · exact ⟨idx, rfl, h⟩
  · exact ⟨_, by simp only [ht, addPtr]; rfl, by simp [IndexSet, hc]⟩
  · exact ⟨idx, rfl, h⟩

/-- A loop over the indices whose every turn returns on the indices it is given returns. -/
theorem updateIndices_progress {f : CapabilityIndex → Except String CapabilityIndex}
    {P : CapabilityIndex → Prop} (hf : ∀ idx, P idx → ∃ idx', f idx = .ok idx') :
    ∀ {l : List (String × CapabilityIndex)}, (∀ e ∈ l, P e.2) →
      ∃ l', updateIndices f l = .ok l'
  | [], _ => ⟨[], rfl⟩
  | (s, idx) :: rest, h => by
    obtain ⟨idx', h₁⟩ := hf idx (h _ (List.mem_cons_self _ _))
    obtain ⟨rest', h₂⟩ :=
      updateIndices_progress hf fun e he => h e (List.mem_cons_of_mem _ he)
    exact ⟨_, by simp only [updateIndices, h₁, h₂]; rfl⟩

/-- `addToCapabilityIndex` of a peer returns on a table whose indices are all set. -/
theorem addToCapabilityIndex_progress {k : Kademlia} {p : Peer} {now : Int}
    (h : ∀ e ∈ k.capabilityIndex, IndexSet e.2) :
    ∃ k', k.addToCapabilityIndex isSameAs (.inl p) now = .ok k' := by
  obtain ⟨l', hl'⟩ := updateIndices_progress (f := Kademlia.addToIndex isSameAs (.inl p) now)
    (P := IndexSet) (fun idx hidx =>
      (foldlM_progress (fun _ a hb => addCapability_set a hb) _ hidx).imp fun _ h => h.1) h
  unfold Kademlia.addToCapabilityIndex Kademlia.updateIndicesM
  split
  · exact ⟨_, rfl⟩
  · rename_i e he
    rw [he] at hl'
    cases hl'

/-- `RegisterCapabilityIndex` adds an index that is set. -/
theorem RegisterCapabilityIndex_indexSet {k : Kademlia}
    (h : ∀ e ∈ k.capabilityIndex, IndexSet e.2)
    (s : String) (c : Capability) :
    ∀ e ∈ (k.RegisterCapabilityIndex s c).1.capabilityIndex, IndexSet e.2 := by
  rcases (k.RegisterCapabilityIndex_fst s c).2.2.2.2 with he | ⟨-, he⟩ <;> rw [he]
  · exact h
  · intro e he
    rcases List.mem_append.1 he with he | he
    · exact h e he
    · rw [List.mem_singleton.1 he]
      exact ⟨rfl, rfl⟩

/-- A new table's default index is `NewDefaultIndex`: registering the capability indices leaves it.
-/
theorem NewKademlia_defaultIndex (base : Key 256) (params : KadParams) (full light : Capability) :
    (NewKademlia base params full light).defaultIndex = NewDefaultIndex :=
  (Kademlia.RegisterCapabilityIndex_fst _ _).1.trans (Kademlia.RegisterCapabilityIndex_fst _ _).1

/-- On a new table the signal of `On(p)` carries order 0 for every peer `p`: its `Swap` inserts
into the empty conns pot at the root. -/
theorem onSignal_new (isSameAs : Capability → Capability → Bool) (base : Key 256)
    (params : KadParams) (full light : Capability) (p : Peer) (now : Int) :
    (NewKademlia base params full light).onSignal isSameAs p now = .ok ⟨p, 0, true⟩ := by
  have hset := RegisterCapabilityIndex_indexSet
    (RegisterCapabilityIndex_indexSet
      (k := ⟨[], List.nodup_nil, NewDefaultIndex, params, base, 0, 0⟩)
      (fun _ h => nomatch h) "full" full) "light" light
  obtain ⟨k', hk'⟩ : ∃ k', ((NewKademlia base params full light).setConns
      (some (newPot (some (newEntryFromPeer p now)) 0))).addToCapabilityIndex isSameAs (.inl p)
        now = .ok k' := addToCapabilityIndex_progress hset
  have hswap : (swapPtr (NewKademlia base params full light).defaultIndex.conns p.bzzAddr.oAddr
      (Kademlia.onCallback (newEntryFromPeer p now))).run false =
      .ok ((some (newPot (some (newEntryFromPeer p now)) 0), 0, false, true), true) := by
    rw [NewKademlia_defaultIndex]
    rfl
  simp only [Kademlia.onSignal, hswap, bind, Except.bind, hk']
  rfl

end Swarm.Network
