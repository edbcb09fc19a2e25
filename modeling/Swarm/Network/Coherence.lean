import Swarm.Network.Flags

/-!
# Coherence of the capability indices

What `addToCapabilityIndex`, `removeFromCapabilityIndex` and `setNeighbourhoodDepth` derive from
the default index stays coherent with it: a capability index's conns hold only live addresses,
and the address of every connected peer that matched the index at an `On` made after the index
was registered; the cached depths are those of the current conns.

All of it is read through `ConnsView`, what a table's conns, indices and depth parameters are.
`Register` leaves the view as it is, `setNeighbourhoodDepth` maps it by `ConnsView.setDepths`,
`RegisterCapabilityIndex` appends an empty index to it, and `On` and `Off` change it at one
address (`On_inv`, `Off_inv`). The main theorem is `coherent_of_run`.
-/

namespace Swarm.Network

open Pot Kademlia

/-- A pot pointer stores a value under `a`; a nil pot stores none. -/
def inPot (p : Option (Pot Entry)) (a : Key 256) : Bool :=
  match p with
  | none => false
  | some t => (lookup t a).isSome

/-- The connection a pot pointer records under `a`. -/
def peerIn (p : Option (Pot Entry)) (a : Key 256) : Option Peer :=
  p.bind fun t => (lookup t a).bind Entry.conn

/-- The peer connected at `a`: the connection of the default conns entry. -/
def Kademlia.peerAt (k : Kademlia) (a : Key 256) : Option Peer := peerIn k.defaultIndex.conns a

/-- A peer matches a capability when it has one of the same id that `IsSameAs` it, the test of
`addToCapabilityIndex`. -/
def Matches (isSameAs : Capability → Capability → Bool) (p : Peer) (c : Capability) : Prop :=
  ∃ vCap ∈ p.bzzAddr.capabilities, c.id = vCap.id ∧ isSameAs vCap c = true

/-- An overlay address is connected exactly when the default conns hold it. -/
theorem connected_eq_inPot (k : Kademlia) (a : Key 256) :
    k.connected a = inPot k.defaultIndex.conns a := rfl

/-! ## The view -/

/-- An index as the depth bookkeeping reads it: its name, its capability, its conns and its
cached depth. -/
structure IndexView where
  name : String
  capability : Option Capability
  conns : Option (Pot Entry)
  depth : Int

/-- The view of a named index. -/
def IndexView.of (e : String × CapabilityIndex) : IndexView :=
  ⟨e.1, e.2.capability, e.2.conns, e.2.depth⟩

/-- A table as the depth bookkeeping reads it: the default conns, the indices, the cached depth,
and what the depths are computed from. -/
structure ConnsView where
  conns : Option (Pot Entry)
  indices : List IndexView
  nDepth : Int
  neighbourhoodSize : Int
  base : Key 256

/-- The view of a table. -/
def Kademlia.connsView (k : Kademlia) : ConnsView :=
  ⟨k.defaultIndex.conns, k.capabilityIndex.map IndexView.of, k.nDepth,
    k.params.neighbourhoodSize, k.base⟩

/-- `setNeighbourhoodDepth` on the view. -/
def ConnsView.setDepths (v : ConnsView) : ConnsView :=
  { v with
    indices := v.indices.map fun x =>
      { x with depth := depthForPot x.conns v.neighbourhoodSize v.base }
    nDepth := depthForPot v.conns v.neighbourhoodSize v.base }

/-- `setNeighbourhoodDepth` recomputes the depths of the view. -/
theorem connsView_setNeighbourhoodDepth (k : Kademlia) :
    k.setNeighbourhoodDepth.connsView = k.connsView.setDepths := by
  simp [Kademlia.connsView, ConnsView.setDepths, IndexView.of, capabilityDepthForPot,
    Function.comp_def]

/-- Every index has a valid conns pot and holds live addresses only. -/
structure Covered (v : ConnsView) : Prop where
  conns_valid : ∃ t, v.conns = some t ∧ Valid t
  index_valid : ∀ x ∈ v.indices, ∃ c, x.conns = some c ∧ Valid c
  conns_sub : ∀ x ∈ v.indices, ∀ a, inPot x.conns a = true → inPot v.conns a = true

/-- The cached depths are those of the current conns. -/
structure Cached (v : ConnsView) : Prop where
  nDepth_eq : v.nDepth = depthForPot v.conns v.neighbourhoodSize v.base
  depth_eq : ∀ x ∈ v.indices, x.depth = depthForPot x.conns v.neighbourhoodSize v.base

/-- Index `s`, of capability `c`, holds the address of `p` while `p` is the peer connected
there. -/
def Tracks (s : String) (c : Capability) (p : Peer) (v : ConnsView) : Prop :=
  ∃ x ∈ v.indices, x.name = s ∧ x.capability = some c ∧
    (peerIn v.conns p.bzzAddr.oAddr = some p → inPot x.conns p.bzzAddr.oAddr = true)

/-- Recomputing the depths keeps the indices covered. -/
theorem Covered.setDepths {v : ConnsView} (h : Covered v) : Covered v.setDepths := by
  refine ⟨h.conns_valid, ?_, ?_⟩ <;>
  · simp only [ConnsView.setDepths, List.mem_map]
    rintro _ ⟨x, hx, rfl⟩
    first | exact h.index_valid x hx | exact h.conns_sub x hx

/-- Recomputing the depths caches those of the current conns. -/
theorem cached_setDepths (v : ConnsView) : Cached v.setDepths := by
  refine ⟨rfl, ?_⟩
  simp only [ConnsView.setDepths, List.mem_map]
  rintro _ ⟨x, -, rfl⟩
  rfl

/-- Recomputing the depths keeps an index tracking a peer. -/
theorem Tracks.setDepths {s : String} {c : Capability} {p : Peer} {v : ConnsView}
    (h : Tracks s c p v) : Tracks s c p v.setDepths := by
  obtain ⟨x, hx, hs, hc, hp⟩ := h
  exact ⟨_, List.mem_map_of_mem _ hx, hs, hc, hp⟩

/-! ## One index -/

/-- A loop over the indices keeps the names, and makes each index `f` of the one before. -/
theorem updateIndices_mem {f : CapabilityIndex → Except String CapabilityIndex} :
    ∀ {l l' : List (String × CapabilityIndex)}, updateIndices f l = .ok l' →
      (∀ e' ∈ l', ∃ e ∈ l, e'.1 = e.1 ∧ f e.2 = .ok e'.2) ∧
        ∀ e ∈ l, ∃ e' ∈ l', e'.1 = e.1 ∧ f e.2 = .ok e'.2
  | [], l', h => by
    cases h
    exact ⟨fun _ h => (nomatch h), fun _ h => (nomatch h)⟩
  | (s, idx) :: rest, l', h => by
    simp only [updateIndices] at h
    obtain ⟨idx', h₁, h⟩ := bind_eq_ok h
    obtain ⟨rest', h₂, h⟩ := bind_eq_ok h
    cases h
    obtain ⟨ih₁, ih₂⟩ := updateIndices_mem h₂
    simp only [List.mem_cons, forall_eq_or_imp]
    refine ⟨⟨⟨(s, idx), .inl rfl, rfl, h₁⟩, fun e' he' => ?_⟩,
      ⟨⟨(s, idx'), .inl rfl, rfl, h₁⟩, fun e he => ?_⟩⟩
    · obtain ⟨e, he, h⟩ := ih₁ e' he'
      exact ⟨e, .inr he, h⟩
    · obtain ⟨e', he', h⟩ := ih₂ e he
      exact ⟨e', .inr he', h⟩

/-- A loop whose every turn keeps `P` keeps it. -/
theorem foldlM_inv {α β : Type} {P : β → Prop} {f : β → α → Except String β}
    (hf : ∀ b a b', P b → f b a = .ok b' → P b') :
    ∀ {l : List α} {b b' : β}, P b → l.foldlM f b = .ok b' → P b'
  | [], _, _, hb, h => by
    cases h
    exact hb
  | a :: l, b, b', hb, h => by
    rw [List.foldlM_cons] at h
    obtain ⟨b₁, h₁, h⟩ := bind_eq_ok h
    exact foldlM_inv hf (hf b a b₁ hb h₁) h

/-- Adding an entry to a valid conns pot gives a valid pot that holds the entry under its address
and is unchanged elsewhere. -/
theorem addPtr_lookup {c : Pot Entry} (hc : Valid c) (e : Entry) {r : Option (Pot Entry)}
    (h : addPtr (some c) e = .ok r) :
    ∃ c', r = some c' ∧ Valid c' ∧
      ∀ a, lookup c' a = if a = e.bzzAddr.oAddr then some e else lookup c a := by
  cases h
  exact ⟨_, rfl, add_valid hc e, fun a => add_lookup hc e a⟩

/-- `idx'` is `idx` with a valid conns pot grown by at most the address `o`. -/
structure GrowsAt (o : Key 256) (idx idx' : CapabilityIndex) : Prop where
  capability_eq : idx'.capability = idx.capability
  depth_eq : idx'.depth = idx.depth
  valid : ∃ c, idx'.conns = some c ∧ Valid c
  mono : ∀ a, inPot idx.conns a = true → inPot idx'.conns a = true
  only : ∀ a, inPot idx'.conns a = true → a = o ∨ inPot idx.conns a = true

/-- An index with a valid conns pot grows into itself. -/
theorem GrowsAt.refl {o : Key 256} {idx : CapabilityIndex} (hv : ∃ c, idx.conns = some c ∧ Valid c) :
    GrowsAt o idx idx :=
  ⟨rfl, rfl, hv, fun _ h => h, fun _ h => .inr h⟩

/-- Growing by at most one address composes. -/
theorem GrowsAt.trans {o : Key 256} {idx₁ idx₂ idx₃ : CapabilityIndex} (h₁ : GrowsAt o idx₁ idx₂)
    (h₂ : GrowsAt o idx₂ idx₃) : GrowsAt o idx₁ idx₃ :=
  ⟨h₂.capability_eq.trans h₁.capability_eq, h₂.depth_eq.trans h₁.depth_eq, h₂.valid,
    fun a h => h₂.mono a (h₁.mono a h), fun a h => (h₂.only a h).elim .inl (h₁.only a)⟩

section AddPeer

variable {isSameAs : Capability → Capability → Bool} {p : Peer} {now : Int}

/-- A turn of `addCapability` for a peer grows the index's conns by at most the peer's address,
and by it when the capability matches the index's. -/
theorem addCapability_peer {idx idx' : CapabilityIndex} {vCap : Capability}
    (hv : ∃ c, idx.conns = some c ∧ Valid c)
    (h : addCapability isSameAs (.inl p) p.bzzAddr now idx vCap = .ok idx') :
    GrowsAt p.bzzAddr.oAddr idx idx' ∧
      ∀ c, idx.capability = some c → c.id = vCap.id → isSameAs vCap c = true →
        inPot idx'.conns p.bzzAddr.oAddr = true := by
  obtain ⟨c, hc, hcv⟩ := hv
  unfold addCapability at h
  split at h
  · cases h
  · rename_i c₀ hcap
    split at h
    · cases h
      refine ⟨.refl ⟨c, hc, hcv⟩, fun c' h' hid _ => ?_⟩
      rw [hcap, Option.some.injEq] at h'
      subst h'
      exact absurd hid ‹_›
    · split at h
      · obtain ⟨r, hr, h⟩ := bind_eq_ok h
        cases h
        rw [hc] at hr
        obtain ⟨c', rfl, hc'v, hlk⟩ := addPtr_lookup hcv _ hr
        refine ⟨⟨rfl, rfl, ⟨c', rfl, hc'v⟩, fun a ha => ?_, fun a ha => ?_⟩, fun _ _ _ _ => ?_⟩
        · simp only [inPot, hc, hlk] at ha ⊢
          split <;> simp_all
        · simp only [inPot, hc, hlk] at ha ⊢
          split at ha
          · exact .inl ‹_›
          · exact .inr ha
        · simp [inPot, hlk, newEntryFromPeer]
      · cases h
        refine ⟨.refl ⟨c, hc, hcv⟩, fun c' h' hid hsame => ?_⟩
        rw [hcap, Option.some.injEq] at h'
        subst h'
        exact absurd hsame ‹_›

/-- `addToCapabilityIndex`'s body for a peer grows the index's conns by at most the peer's
address, and by it when the peer matches the index's capability. -/
theorem addToIndex_peer {idx idx' : CapabilityIndex} (hv : ∃ c, idx.conns = some c ∧ Valid c)
    (h : addToIndex isSameAs (.inl p) now idx = .ok idx') :
    GrowsAt p.bzzAddr.oAddr idx idx' ∧
      ∀ c, idx.capability = some c → Matches isSameAs p c →
        inPot idx'.conns p.bzzAddr.oAddr = true := by
  unfold addToIndex at h
  have grows : ∀ (base : CapabilityIndex) {l : List Capability} {b b' : CapabilityIndex},
      GrowsAt p.bzzAddr.oAddr base b →
        l.foldlM (addCapability isSameAs (.inl p) p.bzzAddr now) b = .ok b' →
          GrowsAt p.bzzAddr.oAddr base b' := fun _ =>
    foldlM_inv fun _ _ _ hb hstep => hb.trans (addCapability_peer hb.valid hstep).1
  refine ⟨grows idx (.refl hv) h, fun c hcap ⟨vCap, hvCap, hid, hsame⟩ => ?_⟩
  suffices ∀ {l : List Capability} {b : CapabilityIndex}, vCap ∈ l → GrowsAt p.bzzAddr.oAddr idx b →
      l.foldlM (addCapability isSameAs (.inl p) p.bzzAddr now) b = .ok idx' →
        inPot idx'.conns p.bzzAddr.oAddr = true from this hvCap (.refl hv) h
  intro l
  induction l with
  | nil => intro _ hmem; cases hmem
  | cons w l ih =>
    intro b hmem hb hfold
    rw [List.foldlM_cons] at hfold
    obtain ⟨b₁, h₁, hrest⟩ := bind_eq_ok hfold
    have hstep := addCapability_peer hb.valid h₁
    rcases List.mem_cons.1 hmem with rfl | hmem
    · exact (grows b₁ (.refl hstep.1.valid) hrest).mono _
        (hstep.2 c (hb.capability_eq.trans hcap) hid hsame)
    · exact ih hmem (hb.trans hstep.1) hrest

end AddPeer

/-- A loop over the indices whose every turn keeps an index's view keeps the views. -/
theorem updateIndices_view {f : CapabilityIndex → Except String CapabilityIndex}
    (hf : ∀ s idx idx', f idx = .ok idx' → IndexView.of (s, idx') = IndexView.of (s, idx)) :
    ∀ {l l' : List (String × CapabilityIndex)}, updateIndices f l = .ok l' →
      l'.map IndexView.of = l.map IndexView.of
  | [], l', h => by
    cases h
    rfl
  | (s, idx) :: rest, l', h => by
    simp only [updateIndices] at h
    obtain ⟨idx', h₁, h⟩ := bind_eq_ok h
    obtain ⟨rest', h₂, h⟩ := bind_eq_ok h
    cases h
    rw [List.map_cons, List.map_cons, hf s idx idx' h₁, updateIndices_view hf h₂]

/-- `addToCapabilityIndex`'s body for an address entry leaves the index's view as it is. -/
theorem addToIndex_entry {isSameAs : Capability → Capability → Bool} {e : Entry} {now : Int}
    (s : String) {idx idx' : CapabilityIndex} (h : addToIndex isSameAs (.inr e) now idx = .ok idx') :
    IndexView.of (s, idx') = IndexView.of (s, idx) := by
  unfold addToIndex at h
  refine foldlM_inv (P := fun b => IndexView.of (s, b) = IndexView.of (s, idx))
    (fun b vCap b' hb hstep => ?_) rfl h
  rw [← hb]
  unfold addCapability at hstep
  split at hstep
  · cases hstep
  · split at hstep
    · cases hstep
      rfl
    · split at hstep
      · obtain ⟨r, -, hstep⟩ := bind_eq_ok hstep
        cases hstep
        rfl
      · cases hstep
        rfl

/-- `removeFromCapabilityIndex`'s body for a peer that disconnects takes the peer's address out
of the index's conns. -/
theorem removeFromIndex_peer {eAddr : BzzAddr} {idx idx' : CapabilityIndex}
    (hv : ∃ c, idx.conns = some c ∧ Valid c) (h : removeFromIndex true eAddr true idx = .ok idx') :
    idx'.capability = idx.capability ∧ idx'.depth = idx.depth ∧
      (∃ c, idx'.conns = some c ∧ Valid c) ∧
      ∀ a, inPot idx'.conns a = (inPot idx.conns a && decide (a ≠ eAddr.oAddr)) := by
  obtain ⟨c, hc, hcv⟩ := hv
  unfold removeFromIndex at h
  obtain ⟨r, h₁, h⟩ := bind_eq_ok h
  rw [hc] at h₁
  obtain ⟨r', po, hr', R⟩ := swapPtr_pure hcv eAddr.oAddr (fun _ => none) (by simp)
  rw [hr'] at h₁
  cases h₁
  cases h
  cases hl : lookup c eAddr.oAddr with
  | none =>
    simp only [hl, Option.isSome_none, Bool.false_eq_true, if_false]
    refine ⟨trivial, trivial, ⟨c, hc, hcv⟩, fun a => ?_⟩
    by_cases ha : a = eAddr.oAddr
    · simp [inPot, hc, ha, hl]
    · simp [ha]
  | some v =>
    obtain ⟨c', rfl⟩ := SwapRoot.exists_some_of_lookup R (by rw [hl]; rfl)
    simp only [hl, Option.isSome_some, if_true]
    refine ⟨trivial, trivial, ⟨c', rfl, R.valid c' rfl⟩, fun a => ?_⟩
    simp only [inPot, hc, R.lookup_eq c' rfl]
    by_cases ha : a = eAddr.oAddr <;> simp [ha]

/-! ## The default conns -/

/-- A `Swap` at the root holds the key exactly when it stores a value there, and is unchanged
elsewhere. -/
theorem inPot_swapRoot {t t' : Pot Entry} {o : Key 256} {new : Option Entry}
    (R : SwapRoot t o new (some t')) (a : Key 256) :
    inPot (some t') a = if a = o then new.isSome else inPot (some t) a := by
  simp only [inPot, R.lookup_eq t' rfl]
  split <;> rfl

/-- A `Swap` at the root records the new value's connection under the key, and is unchanged
elsewhere. -/
theorem peerIn_swapRoot {t t' : Pot Entry} {o : Key 256} {new : Option Entry}
    (R : SwapRoot t o new (some t')) (a : Key 256) :
    peerIn (some t') a = if a = o then new.bind Entry.conn else peerIn (some t) a := by
  simp only [peerIn, Option.some_bind, R.lookup_eq t' rfl]
  split <;> rfl

/-! ## What each operation does to the view -/

/-- The addrs update of `On` changes only the default addrs. -/
theorem Kademlia.onAddrs_setAddrs {k k' : Kademlia} {p : Peer} {now : Int}
    (h : k.onAddrs p now = .ok k') : ∃ a, k' = k.setAddrs a := by
  unfold onAddrs at h
  obtain ⟨r, -, h⟩ := bind_eq_ok h
  cases h
  exact ⟨_, rfl⟩

@[simp] theorem connsView_setAddrs (k : Kademlia) (a : Option (Pot Entry)) :
    (k.setAddrs a).connsView = k.connsView := rfl

/-- The end of `On` recomputes the depths of the view. -/
theorem connsView_onFinish (k : Kademlia) : (onFinish k).1.connsView = k.connsView.setDepths :=
  connsView_setNeighbourhoodDepth _

section Ops

variable (isSameAs : Capability → Capability → Bool)

/-- What `On` does to the view: the peer's address joins the default conns when it is not live,
each index grows by at most that address, and the depths are set. -/
theorem On_inv {k : Kademlia} {p : Peer} {now : Int} {res : Kademlia × UInt8 × Bool}
    (hk : Covered k.connsView) (h : k.On isSameAs p now = .ok res) :
    ∃ t t' l', k.defaultIndex.conns = some t ∧
      SwapRoot t p.bzzAddr.oAddr (if lookup t p.bzzAddr.oAddr = none then
        some (newEntryFromPeer p now) else lookup t p.bzzAddr.oAddr) (some t') ∧
      updateIndices (addToIndex isSameAs (.inl p) now) k.capabilityIndex = .ok l' ∧
      res.1.connsView =
        ({ k.connsView with conns := some t', indices := l'.map IndexView.of }).setDepths := by
  obtain ⟨t, hc, ht⟩ := hk.conns_valid
  unfold Kademlia.On at h
  obtain ⟨⟨r, ins⟩, h1, h⟩ := bind_eq_ok h
  obtain ⟨k₂, h2, h⟩ := bind_eq_ok h
  obtain ⟨k₃, h3, h⟩ := bind_eq_ok h
  cases h
  obtain ⟨r₀, po, hr₀, R⟩ :=
    swapPtr_onCallback ht p.bzzAddr.oAddr (newEntryFromPeer p now) rfl
  rw [show k.defaultIndex.conns = some t from hc, hr₀] at h1
  cases h1
  obtain ⟨t', rfl⟩ := SwapRoot.exists_some R (by split <;> simp_all [Option.isSome_iff_ne_none])
  obtain ⟨hl, hd, hp, hb⟩ := addToCapabilityIndex_ok h2
  have h₃ : k₃.connsView = k₂.connsView := by
    split at h3
    · obtain ⟨a, rfl⟩ := onAddrs_setAddrs h3
      rfl
    · cases h3
      rfl
  refine ⟨t, t', _, hc, R, hl, ?_⟩
  rw [connsView_onFinish, h₃]
  simp [Kademlia.connsView, ConnsView.setDepths, hd, hp, hb]

/-- What `Off` of a live peer does to the view: the peer's address leaves the default conns and
every index, and the depths are set. -/
theorem Off_inv {k k' : Kademlia} {p : Peer} {now : Int} (hk : Covered k.connsView)
    (hlive : k.connected p.bzzAddr.oAddr = true) (h : k.Off p now = .ok k') :
    ∃ t t' l', k.defaultIndex.conns = some t ∧ SwapRoot t p.bzzAddr.oAddr none (some t') ∧
      updateIndices (removeFromIndex true p.bzzAddr true) k.capabilityIndex = .ok l' ∧
      k'.connsView =
        ({ k.connsView with conns := some t', indices := l'.map IndexView.of }).setDepths := by
  obtain ⟨t, hc, ht⟩ := hk.conns_valid
  unfold Kademlia.Off at h
  obtain ⟨res₁, -, h⟩ := bind_eq_ok h
  obtain ⟨res₂, h2, h⟩ := bind_eq_ok h
  obtain ⟨k₃, h3, h⟩ := bind_eq_ok h
  cases h
  simp only [setAddrs_defaultIndex, show k.defaultIndex.conns = some t from hc] at h2
  obtain ⟨r, po, hr, R⟩ := swapPtr_pure ht p.bzzAddr.oAddr (fun _ => none) (by simp)
  rw [hr] at h2
  cases h2
  rw [connected_eq_inPot, show k.defaultIndex.conns = some t from hc] at hlive
  obtain ⟨t', rfl⟩ := SwapRoot.exists_some_of_lookup R hlive
  obtain ⟨hl, hd, hp, hb⟩ := removeFromCapabilityIndex_peer_ok h3
  refine ⟨t, t', _, hc, R, hl, ?_⟩
  rw [connsView_setNeighbourhoodDepth]
  simp [Kademlia.connsView, ConnsView.setDepths, hd, hp, hb]

/-- `Register` leaves the view as it is when it returns an error, and sets its depths
otherwise. -/
theorem registerLoop_view {now : Int} :
    ∀ {peers : List BzzAddr} {k : Kademlia} {r : Kademlia × Option String},
      registerLoop isSameAs k now peers = .ok r →
        r.1.connsView = k.connsView ∨ r.1.connsView = k.connsView.setDepths
  | [], k, r, h => by
    cases h
    exact .inr (connsView_setNeighbourhoodDepth k)
  | p :: peers, k, r, h => by
    simp only [registerLoop] at h
    split at h
    · cases h
      exact .inl rfl
    · obtain ⟨res, -, h⟩ := bind_eq_ok h
      obtain ⟨k₂, h2, hrec⟩ := bind_eq_ok h
      obtain ⟨hl, hd, hp, hb, hn⟩ := addToCapabilityIndex_ok h2
      have hv : k₂.connsView = k.connsView := by
        have := updateIndices_view (fun s _ _ h => addToIndex_entry s h) hl
        simp only [Kademlia.connsView, hd, hp, hb, hn, this, setAddrs_defaultIndex,
          setAddrs_capabilityIndex, setAddrs_params, setAddrs_base]
        rfl
      rw [← hv]
      exact registerLoop_view hrec

end Ops

/-- `RegisterCapabilityIndex` leaves the view as it is, or appends an empty index to it. -/
theorem RegisterCapabilityIndex_view (k : Kademlia) (s : String) (c : Capability) :
    (k.RegisterCapabilityIndex s c).1.connsView = k.connsView ∨
      (k.RegisterCapabilityIndex s c).1.connsView =
        { k.connsView with indices := k.connsView.indices ++ [⟨s, some c, some empty, 0⟩] } := by
  obtain ⟨hd, hp, hb, hn, hl | ⟨-, hl⟩⟩ := RegisterCapabilityIndex_fst (k := k) s c
  · left
    simp [Kademlia.connsView, hd, hp, hb, hn, hl]
  · right
    simp [Kademlia.connsView, hd, hp, hb, hn, hl]
    rfl

@[simp] theorem depthForPot_empty (neighbourhoodSize : Int) (pivotAddr : Key 256) :
    depthForPot (some empty) neighbourhoodSize pivotAddr = 0 := by
  simp [depthForPot, potSize, EachBin, eachBin, empty, newPot]

/-! ## The invariants kept -/

/-- A new empty index keeps the invariants. -/
theorem Covered.append_empty {v : ConnsView} (h : Covered v) (s : String) (c : Capability) :
    Covered { v with indices := v.indices ++ [⟨s, some c, some empty, 0⟩] } := by
  refine ⟨h.conns_valid, fun x hx => ?_, fun x hx => ?_⟩ <;>
    rcases List.mem_append.1 hx with hx | hx
  · exact h.index_valid x hx
  · obtain rfl := List.mem_singleton.1 hx
    exact ⟨empty, rfl, .inl rfl⟩
  · exact h.conns_sub x hx
  · obtain rfl := List.mem_singleton.1 hx
    intro a ha
    simp [inPot, lookup] at ha

/-- A new capability index, with empty conns and depth 0, keeps the depths cached. -/
theorem Cached.append_empty {v : ConnsView} (h : Cached v) (s : String) (c : Capability) :
    Cached { v with indices := v.indices ++ [⟨s, some c, some empty, 0⟩] } := by
  refine ⟨h.nDepth_eq, fun x hx => ?_⟩
  rcases List.mem_append.1 hx with hx | hx
  · exact h.depth_eq x hx
  · obtain rfl := List.mem_singleton.1 hx
    simp

section Calls

variable {isSameAs : Capability → Capability → Bool} {k k' : Kademlia} {now : Int}

/-- `On` keeps the indices covered. -/
theorem Covered.on {p : Peer} {res : Kademlia × UInt8 × Bool} (hk : Covered k.connsView)
    (h : k.On isSameAs p now = .ok res) : Covered res.1.connsView := by
  obtain ⟨t, t', l', hc, R, hl, hv⟩ := On_inv isSameAs hk h
  rw [hv]
  refine Covered.setDepths ⟨⟨t', rfl, R.valid t' rfl⟩, ?_, ?_⟩ <;>
  · simp only [List.mem_map]
    rintro _ ⟨e', he', rfl⟩
    obtain ⟨e, he, -, hf⟩ := (updateIndices_mem hl).1 e' he'
    have hg := (addToIndex_peer (hk.index_valid _ (List.mem_map_of_mem _ he)) hf).1
    first
    | exact hg.valid
    | intro a ha
      rw [inPot_swapRoot R]
      split
      · split
        · rfl
        · exact Option.isSome_iff_ne_none.2 ‹_›
      · rcases hg.only a ha with rfl | ha
        · contradiction
        · have := hk.conns_sub _ (List.mem_map_of_mem _ he) a ha
          rwa [show k.connsView.conns = some t from hc] at this

/-- `Off` of a live peer keeps the indices covered. -/
theorem Covered.off {p : Peer} (hk : Covered k.connsView)
    (hlive : k.connected p.bzzAddr.oAddr = true) (h : k.Off p now = .ok k') :
    Covered k'.connsView := by
  obtain ⟨t, t', l', hc, R, hl, hv⟩ := Off_inv hk hlive h
  rw [hv]
  refine Covered.setDepths ⟨⟨t', rfl, R.valid t' rfl⟩, ?_, ?_⟩ <;>
  · simp only [List.mem_map]
    rintro _ ⟨e', he', rfl⟩
    obtain ⟨e, he, -, hf⟩ := (updateIndices_mem hl).1 e' he'
    have hr := removeFromIndex_peer (hk.index_valid _ (List.mem_map_of_mem _ he)) hf
    first
    | exact hr.2.2.1
    | intro a ha
      have ha' := (hr.2.2.2 a).symm.trans ha
      rw [Bool.and_eq_true, decide_eq_true_iff] at ha'
      have := hk.conns_sub _ (List.mem_map_of_mem _ he) a ha'.1
      rw [inPot_swapRoot R, if_neg ha'.2]
      rwa [show k.connsView.conns = some t from hc] at this

/-- `On` of any peer keeps index `s` tracking `p`, when `p` matches the index's capability. -/
theorem Tracks.on {s : String} {c : Capability} {p q : Peer} {res : Kademlia × UInt8 × Bool}
    (hk : Covered k.connsView) (hm : Matches isSameAs p c) (hT : Tracks s c p k.connsView)
    (h : k.On isSameAs q now = .ok res) : Tracks s c p res.1.connsView := by
  obtain ⟨t, t', l', hc, R, hl, hv⟩ := On_inv isSameAs hk h
  rw [hv]
  refine Tracks.setDepths ?_
  obtain ⟨x, hx, hs, hcap, himp⟩ := hT
  obtain ⟨e, he, rfl⟩ := List.mem_map.1 hx
  obtain ⟨e', he', hname, hf⟩ := (updateIndices_mem hl).2 e he
  obtain ⟨hg, hmatch⟩ := addToIndex_peer (hk.index_valid _ hx) hf
  have himp' : peerIn (some t) p.bzzAddr.oAddr = some p → inPot e.2.conns p.bzzAddr.oAddr = true :=
    fun hp => himp (by rwa [show k.connsView.conns = some t from hc])
  refine ⟨IndexView.of e', List.mem_map_of_mem _ he', hname.trans hs,
    hg.capability_eq.trans hcap, fun hp => ?_⟩
  rw [peerIn_swapRoot R] at hp
  split at hp
  · rename_i hpq
    split at hp
    · obtain rfl : q = p := by simpa [newEntryFromPeer] using hp
      exact hmatch c hcap hm
    · exact hg.mono _ (himp' (by rwa [hpq]))
  · exact hg.mono _ (himp' hp)

/-- `On` of `p` makes an index whose capability `p` matches track `p`. -/
theorem tracks_on_self {s : String} {c : Capability} {p : Peer} {idx : CapabilityIndex}
    {res : Kademlia × UInt8 × Bool} (hk : Covered k.connsView) (hs : (s, idx) ∈ k.capabilityIndex)
    (hcap : idx.capability = some c) (hm : Matches isSameAs p c)
    (h : k.On isSameAs p now = .ok res) : Tracks s c p res.1.connsView := by
  obtain ⟨t, t', l', hc, R, hl, hv⟩ := On_inv isSameAs hk h
  rw [hv]
  refine Tracks.setDepths ?_
  obtain ⟨e', he', hname, hf⟩ := (updateIndices_mem hl).2 _ hs
  obtain ⟨hg, hmatch⟩ := addToIndex_peer (hk.index_valid _ (List.mem_map_of_mem _ hs)) hf
  exact ⟨IndexView.of e', List.mem_map_of_mem _ he', hname, hg.capability_eq.trans hcap,
    fun _ => hmatch c hcap hm⟩

/-- `Off` of a live peer keeps index `s` tracking `p`. -/
theorem Tracks.off {s : String} {c : Capability} {p q : Peer} (hk : Covered k.connsView)
    (hlive : k.connected q.bzzAddr.oAddr = true) (hT : Tracks s c p k.connsView)
    (h : k.Off q now = .ok k') : Tracks s c p k'.connsView := by
  obtain ⟨t, t', l', hc, R, hl, hv⟩ := Off_inv hk hlive h
  rw [hv]
  refine Tracks.setDepths ?_
  obtain ⟨x, hx, hs, hcap, himp⟩ := hT
  obtain ⟨e, he, rfl⟩ := List.mem_map.1 hx
  obtain ⟨e', he', hname, hf⟩ := (updateIndices_mem hl).2 e he
  have hr := removeFromIndex_peer (hk.index_valid _ hx) hf
  refine ⟨IndexView.of e', List.mem_map_of_mem _ he', hname.trans hs, hr.1.trans hcap,
    fun hp => ?_⟩
  rw [peerIn_swapRoot R] at hp
  split at hp
  · cases hp
  · rename_i hne
    have := himp (by rwa [show k.connsView.conns = some t from hc])
    show inPot e'.2.conns _ = true
    simpa [hr.2.2.2, hne] using this

/-- Every call `offLive` allows keeps the indices covered and the depths cached. -/
theorem coherent_call {c : Call} (hk : Covered k.connsView) (hk' : Cached k.connsView)
    (hc : offLive k c) (h : k.call isSameAs c = .ok k') :
    Covered k'.connsView ∧ Cached k'.connsView := by
  rcases c with ⟨s, cap⟩ | ⟨peers, now⟩ | ⟨p, now⟩ | ⟨p, now⟩
  · cases h
    rcases RegisterCapabilityIndex_view k s cap with hv | hv <;> rw [hv]
    · exact ⟨hk, hk'⟩
    · exact ⟨hk.append_empty s cap, hk'.append_empty s cap⟩
  · obtain ⟨r, hr, h⟩ := bind_eq_ok h
    cases h
    rcases registerLoop_view isSameAs hr with hv | hv <;> rw [hv]
    · exact ⟨hk, hk'⟩
    · exact ⟨hk.setDepths, cached_setDepths _⟩
  · obtain ⟨r, hr, h⟩ := bind_eq_ok h
    cases h
    obtain ⟨_, _, _, -, -, -, hv⟩ := On_inv isSameAs hk hr
    exact ⟨hk.on hr, hv ▸ cached_setDepths _⟩
  · obtain ⟨_, _, _, -, -, -, hv⟩ := Off_inv hk hc h
    exact ⟨hk.off hc h, hv ▸ cached_setDepths _⟩

/-- Every call `offLive` allows keeps index `s` tracking `p`. -/
theorem tracks_call {s : String} {cap : Capability} {p : Peer} {c : Call}
    (hk : Covered k.connsView) (hm : Matches isSameAs p cap) (hT : Tracks s cap p k.connsView)
    (hc : offLive k c) (h : k.call isSameAs c = .ok k') : Tracks s cap p k'.connsView := by
  rcases c with ⟨s', cap'⟩ | ⟨peers, now⟩ | ⟨q, now⟩ | ⟨q, now⟩
  · cases h
    rcases RegisterCapabilityIndex_view k s' cap' with hv | hv <;> rw [hv]
    · exact hT
    · obtain ⟨x, hx, hxs⟩ := hT
      exact ⟨x, List.mem_append_left _ hx, hxs⟩
  · obtain ⟨r, hr, h⟩ := bind_eq_ok h
    cases h
    rcases registerLoop_view isSameAs hr with hv | hv <;> rw [hv]
    · exact hT
    · exact hT.setDepths
  · obtain ⟨r, hr, h⟩ := bind_eq_ok h
    cases h
    exact hT.on hk hm hr
  · exact hT.off hk hc h

variable (isSameAs)

/-- Every run of calls that take `Off` only of a live peer keeps the indices covered and the depths
cached. -/
theorem coherent_run {k₀ : Kademlia} {calls : List Call} (h : Run isSameAs offLive k₀ calls k)
    (h₀ : Covered k₀.connsView ∧ Cached k₀.connsView) :
    Covered k.connsView ∧ Cached k.connsView := by
  induction h with
  | nil => exact h₀
  | snoc _ hallowed hcall ih => exact coherent_call ih.1 ih.2 hallowed hcall

/-- Every run of calls that take `Off` only of a live peer keeps an index tracking a peer that
matches its capability. -/
theorem tracks_run {k₀ : Kademlia} {calls : List Call} {s : String} {c : Capability} {p : Peer}
    (h : Run isSameAs offLive k₀ calls k) (h₀ : Covered k₀.connsView ∧ Cached k₀.connsView)
    (hm : Matches isSameAs p c) (hT : Tracks s c p k₀.connsView) : Tracks s c p k.connsView := by
  induction h with
  | nil => exact hT
  | snoc hrun hallowed hcall ih =>
    exact tracks_call (coherent_run isSameAs hrun h₀).1 hm ih hallowed hcall

end Calls

/-- A new table has covered indices and cached depths. -/
theorem coherent_new (addr : Key 256) (params : KadParams) (full light : Capability) :
    Covered (NewKademlia addr params full light).connsView ∧
      Cached (NewKademlia addr params full light).connsView := by
  have step : ∀ (k : Kademlia) (s : String) (c : Capability),
      Covered k.connsView ∧ Cached k.connsView →
        Covered (k.RegisterCapabilityIndex s c).1.connsView ∧
          Cached (k.RegisterCapabilityIndex s c).1.connsView :=
    fun k s c h => coherent_call h.1 h.2
      (show offLive k (.registerCapabilityIndex s c) from trivial)
      (rfl : k.call (fun _ _ => true) (.registerCapabilityIndex s c) = _)
  refine step _ _ _ (step _ _ _ ⟨⟨⟨empty, rfl, .inl rfl⟩, ?_, ?_⟩, ⟨by simp [Kademlia.connsView,
    NewDefaultIndex], ?_⟩⟩) <;> simp [Kademlia.connsView]

/-- In every state reached from `NewKademlia` by calls that take `Off` only of a live peer: every
address in a capability index's conns is live; a peer connected at its address that matched an
index's capability at an `On` made after the index was registered is in the index's conns; and
the cached depths are those of the current conns. -/
theorem coherent_of_run (isSameAs : Capability → Capability → Bool) {addr : Key 256}
    {params : KadParams} {full light : Capability} {calls : List Call} {k : Kademlia}
    (h : Run isSameAs offLive (NewKademlia addr params full light) calls k) :
    (∀ s idx, (s, idx) ∈ k.capabilityIndex → ∀ a, inPot idx.conns a = true →
      k.connected a = true) ∧
    (∀ pre post (p : Peer) now k₁ s idx₁ c, calls = pre ++ Call.on p now :: post →
      Run isSameAs offLive (NewKademlia addr params full light) pre k₁ →
      (s, idx₁) ∈ k₁.capabilityIndex → idx₁.capability = some c → Matches isSameAs p c →
      k.peerAt p.bzzAddr.oAddr = some p →
      ∃ idx, (s, idx) ∈ k.capabilityIndex ∧ inPot idx.conns p.bzzAddr.oAddr = true) ∧
    k.nDepth = depthForPot k.defaultIndex.conns k.params.neighbourhoodSize k.base ∧
    ∀ s idx, (s, idx) ∈ k.capabilityIndex →
      idx.depth = depthForPot idx.conns k.params.neighbourhoodSize k.base := by
  have h₀ := coherent_new addr params full light
  obtain ⟨hcov, hcache⟩ := coherent_run isSameAs h h₀
  refine ⟨fun s idx hs a ha => hcov.conns_sub _ (List.mem_map_of_mem IndexView.of hs) a ha,
    fun pre post p now k₁ s idx₁ c hcalls h₁ hs hcap hm hp => ?_, hcache.nDepth_eq,
    fun s idx hs => hcache.depth_eq _ (List.mem_map_of_mem IndexView.of hs)⟩
  subst hcalls
  obtain ⟨k₁', k₂, h₁', hallowed, hon, h₂⟩ := h.split
  cases h₁.deterministic h₁'
  obtain ⟨r, hr, hk₂⟩ := bind_eq_ok hon
  cases hk₂
  have hT := tracks_on_self (coherent_run isSameAs h₁ h₀).1 hs hcap hm hr
  obtain ⟨x, hx, hxs, -, himp⟩ :=
    tracks_run isSameAs h₂ (coherent_run isSameAs (h₁.snoc hallowed hon) h₀) hm hT
  obtain ⟨⟨s', idx⟩, he, rfl⟩ := List.mem_map.1 hx
  obtain rfl : s' = s := hxs
  exact ⟨idx, he, himp hp⟩

set_option maxRecDepth 10000 in
/-- A peer with the full capability comes `On` on a new table: the index of that capability holds
it. -/
theorem coherent_of_run_on_full :
    ∃ k, Run (fun a b => a == b) offLive (NewKademlia zeroKey NewKadParams ⟨0, [true]⟩ ⟨1, []⟩)
        [.on ⟨0, ⟨farKey, [1], [⟨0, [true]⟩]⟩⟩ 0] k ∧
      ∃ idx, ("full", idx) ∈ k.capabilityIndex ∧ inPot idx.conns farKey = true := by
  let same : Capability → Capability → Bool := fun a b => a == b
  let k₀ := NewKademlia zeroKey NewKadParams ⟨0, [true]⟩ ⟨1, []⟩
  let p : Peer := ⟨0, ⟨farKey, [1], [⟨0, [true]⟩]⟩⟩
  let k₁ := (k₀.call same (.on p 0)).toOption.getD k₀
  have h₁ : k₀.call same (.on p 0) = .ok k₁ := rfl
  have hrun : Run same offLive k₀ [.on p 0] k₁ := Run.snoc (Run.nil k₀) trivial h₁
  have hfull : ("full", NewCapabilityIndex ⟨0, [true]⟩) ∈ k₀.capabilityIndex := .head _
  have hp : k₁.peerAt farKey = some p := by decide
  exact ⟨k₁, hrun, (coherent_of_run same hrun).2.1 [] [] p 0 k₀ _ _ _ rfl (.nil k₀) hfull rfl
    ⟨⟨0, [true]⟩, .head _, rfl, rfl⟩ hp⟩

end Swarm.Network
