import Swarm.Network.Coherence

/-!
# Known addresses and the capability address indices

What `Register`, `On` and `Off` leave in the addrs pots. The default addrs pot holds every address
that a `Register` call stored and the address of every peer that came `On`. A capability index's
addrs pot holds exactly the stored addresses whose capabilities match the index's: only an
address entry, which only `Register` passes to `addToCapabilityIndex`, is added to an addrs pot.
So a peer that comes `On` without having been registered is known to the default index and to no
capability index.

Read `addrs_of_run` first. It is assembled from one lemma per operation (`registerLoop_known`,
`On_known`, `Off_known`), each stated through the invariants `Known` and `Reads`.
-/

namespace Swarm.Network

open Pot Kademlia

/-- An address matches a capability when it has one of the same id that `IsSameAs` it, the test
`addToCapabilityIndex` makes for an address entry. -/
def AddrMatches (isSameAs : Capability → Capability → Bool) (b : BzzAddr) (c : Capability) :
    Prop :=
  ∃ vCap ∈ b.capabilities, c.id = vCap.id ∧ isSameAs vCap c = true

/-- The addresses a call stores in a table of base address `base`: a `Register` call stores its
addresses up to the first that is the base address, where it returns its error. -/
def Call.stored (base : Key 256) : Call → List BzzAddr
  | .register peers _ => peers.takeWhile fun p => p.oAddr ≠ base
  | _ => []

/-- The address of the peer that an `On` call connects. -/
def Call.dialled : Call → List (Key 256)
  | .on p _ => [p.bzzAddr.oAddr]
  | _ => []

/-- The call registers a capability index. -/
def Call.isIndex : Call → Bool
  | .registerCapabilityIndex _ _ => true
  | _ => false

/-! ## The invariants -/

/-- The default index's pots are valid, every live address is known, and the known addresses are
those stored (`L`) and those dialled (`D`). -/
structure Known (L : List BzzAddr) (D : List (Key 256)) (idx : CapabilityIndex) : Prop where
  conns_valid : ∃ t, idx.conns = some t ∧ Valid t
  addrs_valid : ∃ u, idx.addrs = some u ∧ Valid u
  conns_sub : ∀ a, inPot idx.conns a = true → inPot idx.addrs a = true
  addrs_iff : ∀ a, inPot idx.addrs a = true ↔ (∃ b ∈ L, b.oAddr = a) ∨ a ∈ D

section Reads

variable (isSameAs : Capability → Capability → Bool)

/-- An index has a capability, and a valid addrs pot that holds exactly the addresses of `L`
that match it. -/
def IndexReads (L : List BzzAddr) (idx : CapabilityIndex) : Prop :=
  ∃ c, idx.capability = some c ∧ (∃ t, idx.addrs = some t ∧ Valid t) ∧
    ∀ a, inPot idx.addrs a = true ↔ ∃ b ∈ L, b.oAddr = a ∧ AddrMatches isSameAs b c

/-- Every capability index reads `L`. -/
def Reads (L : List BzzAddr) (k : Kademlia) : Prop :=
  ∀ e ∈ k.capabilityIndex, IndexReads isSameAs L e.2

end Reads

variable {isSameAs : Capability → Capability → Bool} {L : List BzzAddr} {D : List (Key 256)}

/-- What an index reads depends only on its capability and its addrs. -/
theorem IndexReads.of_eq {idx idx' : CapabilityIndex} (h : IndexReads isSameAs L idx)
    (hc : idx'.capability = idx.capability) (ha : idx'.addrs = idx.addrs) :
    IndexReads isSameAs L idx' := by
  unfold IndexReads
  rwa [hc, ha]

/-- A loop over the indices whose every turn keeps an index reading `L` to one reading `L'`
makes every index read `L'`. -/
theorem Reads.updateIndices {L' : List BzzAddr} {k k' : Kademlia}
    {f : CapabilityIndex → Except String CapabilityIndex}
    (hf : ∀ idx idx', IndexReads isSameAs L idx → f idx = .ok idx' → IndexReads isSameAs L' idx')
    (hk : Reads isSameAs L k) (h : updateIndices f k.capabilityIndex = .ok k'.capabilityIndex) :
    Reads isSameAs L' k' := fun e' he' =>
  let ⟨e, he, _, hfe⟩ := (updateIndices_mem h).1 e' he'
  hf _ _ (hk e he) hfe

/-- Setting the depths keeps what the capability indices read. -/
theorem Reads.setNeighbourhoodDepth {k : Kademlia} (hk : Reads isSameAs L k) :
    Reads isSameAs L k.setNeighbourhoodDepth := by
  intro e he
  simp only [setNeighbourhoodDepth_capabilityIndex, List.mem_map] at he
  obtain ⟨e, he, rfl⟩ := he
  exact hk e he

/-! ## One index -/

section AddEntry

variable {p : BzzAddr} {now : Int} {c : Capability} {t : Pot Entry}

/-- A turn of `addCapability` for an address entry adds the address to the index's addrs when the
capability matches the index's. -/
theorem addCapability_entry {b b' : CapabilityIndex} {vCap : Capability}
    (hc : b.capability = some c) (hb : b.addrs = some t) (ht : Valid t)
    (h : addCapability isSameAs (.inr (newEntryFromBzzAddress p now)) p now b vCap = .ok b') :
    b'.capability = some c ∧ ∃ t', b'.addrs = some t' ∧ Valid t' ∧
      ∀ a, inPot (some t') a = true ↔
        inPot (some t) a = true ∨ a = p.oAddr ∧ c.id = vCap.id ∧ isSameAs vCap c = true := by
  unfold addCapability at h
  simp only [hc] at h
  by_cases hid : c.id = vCap.id
  · by_cases hs : isSameAs vCap c = true
    · simp only [hid, hs, ne_eq, not_true_eq_false, ↓reduceIte] at h
      obtain ⟨r, hr, h⟩ := bind_eq_ok h
      cases h
      rw [hb] at hr
      obtain ⟨t', rfl, ht', hlk⟩ := addPtr_lookup ht _ hr
      refine ⟨rfl, t', rfl, ht', fun a => ?_⟩
      simp only [inPot, hlk, newEntryFromBzzAddress]
      split <;> simp_all
    · simp only [hid, hs, ne_eq, not_true_eq_false, ↓reduceIte] at h
      cases h
      exact ⟨hc, t, hb, ht, fun a => by simp_all⟩
  · simp only [hid, ne_eq, not_false_eq_true, ↓reduceIte] at h
    cases h
    exact ⟨hc, t, hb, ht, fun a => by simp_all⟩

/-- `addCapability` over a list of capabilities adds the address when one of them matches. -/
theorem foldlM_addCapability_entry :
    ∀ {l : List Capability} {b b' : CapabilityIndex} {t : Pot Entry},
      b.capability = some c → b.addrs = some t → Valid t →
      l.foldlM (addCapability isSameAs (.inr (newEntryFromBzzAddress p now)) p now) b = .ok b' →
      b'.capability = some c ∧ ∃ t', b'.addrs = some t' ∧ Valid t' ∧
        ∀ a, inPot (some t') a = true ↔
          inPot (some t) a = true ∨ a = p.oAddr ∧ ∃ vCap ∈ l, c.id = vCap.id ∧ isSameAs vCap c
  | [], b, b', t, hc, hb, ht, h => by
    cases h
    exact ⟨hc, t, hb, ht, fun a => by simp⟩
  | w :: l, b, b', t, hc, hb, ht, h => by
    rw [List.foldlM_cons] at h
    obtain ⟨b₁, h₁, h⟩ := bind_eq_ok h
    obtain ⟨hc₁, t₁, hb₁, ht₁, hiff₁⟩ := addCapability_entry hc hb ht h₁
    obtain ⟨hc', t', hb', ht', hiff⟩ := foldlM_addCapability_entry hc₁ hb₁ ht₁ h
    refine ⟨hc', t', hb', ht', fun a => ?_⟩
    rw [hiff, hiff₁]
    simp only [List.mem_cons, exists_eq_or_imp, and_or_left, or_assoc]

/-- `addToCapabilityIndex`'s body for the entry of a registered address adds the address to an
index that reads `L` exactly when the address matches the index's capability. -/
theorem addToIndex_entry_reads {idx idx' : CapabilityIndex} (hidx : IndexReads isSameAs L idx)
    (h : addToIndex isSameAs (.inr (newEntryFromBzzAddress p now)) now idx = .ok idx') :
    IndexReads isSameAs (L ++ [p]) idx' := by
  obtain ⟨c, hc, ⟨t, hb, ht⟩, hiff⟩ := hidx
  obtain ⟨hc', t', hb', ht', hiff'⟩ := foldlM_addCapability_entry hc hb ht h
  refine ⟨c, hc', ⟨t', hb', ht'⟩, fun a => ?_⟩
  rw [hb', hiff', ← hb, hiff]
  simp only [List.mem_append, List.mem_singleton, AddrMatches]
  constructor
  · rintro (⟨b, hb, rfl, hm⟩ | ⟨rfl, hm⟩)
    · exact ⟨b, .inl hb, rfl, hm⟩
    · exact ⟨p, .inr rfl, rfl, hm⟩
  · rintro ⟨b, hb | rfl, rfl, hm⟩
    · exact .inl ⟨b, hb, rfl, hm⟩
    · exact .inr ⟨rfl, hm⟩

end AddEntry

/-- `addToCapabilityIndex`'s body for a peer leaves the index's capability and addrs as they
are. -/
theorem addToIndex_peer_addrs {p : Peer} {now : Int} {idx idx' : CapabilityIndex}
    (h : addToIndex isSameAs (.inl p) now idx = .ok idx') :
    idx'.capability = idx.capability ∧ idx'.addrs = idx.addrs := by
  refine foldlM_inv (P := fun b => b.capability = idx.capability ∧ b.addrs = idx.addrs)
    (fun b vCap b' hb hstep => ?_) ⟨rfl, rfl⟩ h
  unfold addCapability at hstep
  split at hstep
  · cases hstep
  · split at hstep
    · cases hstep
      exact hb
    · split at hstep
      · obtain ⟨r, -, hstep⟩ := bind_eq_ok hstep
        cases hstep
        exact hb
      · cases hstep
        exact hb

/-- `removeFromCapabilityIndex`'s body for a peer that disconnects leaves the index's capability
and addrs as they are. -/
theorem removeFromIndex_addrs {eAddr : BzzAddr} {idx idx' : CapabilityIndex}
    (h : removeFromIndex true eAddr true idx = .ok idx') :
    idx'.capability = idx.capability ∧ idx'.addrs = idx.addrs := by
  unfold removeFromIndex at h
  obtain ⟨r, -, h⟩ := bind_eq_ok h
  simp only [pure_bind, Bool.not_true, Bool.false_eq_true, ↓reduceIte] at h
  cases h
  split <;> exact ⟨rfl, rfl⟩

/-- The invariant after a step that makes `o` known, and may make it live. -/
theorem Known.grow {L' : List BzzAddr} {D' : List (Key 256)} {idx idx' : CapabilityIndex}
    (hk : Known L D idx) (o : Key 256) (hc : ∃ t, idx'.conns = some t ∧ Valid t)
    (ha : ∃ u, idx'.addrs = some u ∧ Valid u)
    (hconns : ∀ a, inPot idx'.conns a = true → a = o ∨ inPot idx.conns a = true)
    (haddrs : ∀ a, inPot idx'.addrs a = true ↔ a = o ∨ inPot idx.addrs a = true)
    (hL : ∀ a, (a = o ∨ (∃ b ∈ L, b.oAddr = a) ∨ a ∈ D) ↔ (∃ b ∈ L', b.oAddr = a) ∨ a ∈ D') :
    Known L' D' idx' :=
  ⟨hc, ha, fun a h => (haddrs a).2 ((hconns a h).imp_right (hk.conns_sub a)),
    fun a => by rw [haddrs, hk.addrs_iff, hL]⟩

/-- A pot that `Swap` gave a value under `o` holds `o` and what it held before. -/
theorem inPot_swapRoot_some {t t' : Pot Entry} {o : Key 256} {new : Option Entry}
    (R : SwapRoot t o new (some t')) (hnew : new.isSome) (a : Key 256) :
    inPot (some t') a = true ↔ a = o ∨ inPot (some t) a = true := by
  rw [inPot_swapRoot R]
  by_cases ha : a = o <;> simp [ha, hnew]

/-! ## What each operation does to the addrs -/

section Ops

variable {now : Int}

/-- `Register` stores each address it reaches, up to the base address, in the default addrs, and
in the addrs of every index whose capability the address matches. -/
theorem registerLoop_known :
    ∀ {peers : List BzzAddr} {k : Kademlia} {r : Kademlia × Option String} {L : List BzzAddr},
      Known L D k.defaultIndex → Reads isSameAs L k → registerLoop isSameAs k now peers = .ok r →
        Known (L ++ peers.takeWhile fun p => p.oAddr ≠ k.base) D r.1.defaultIndex ∧
          Reads isSameAs (L ++ peers.takeWhile fun p => p.oAddr ≠ k.base) r.1 ∧ r.1.base = k.base
  | [], k, r, L, hk, hr, h => by
    cases h
    simpa using ⟨hk, hr.setNeighbourhoodDepth⟩
  | p :: peers, k, r, L, hk, hr, h => by
    simp only [registerLoop] at h
    split at h
    · cases h
      rw [List.takeWhile_cons_of_neg (by simpa), List.append_nil]
      exact ⟨hk, hr, rfl⟩
    · rename_i hbase
      obtain ⟨res, h1, h⟩ := bind_eq_ok h
      obtain ⟨k₂, h2, hrec⟩ := bind_eq_ok h
      obtain ⟨u, hu, hvu⟩ := hk.addrs_valid
      rw [hu] at h1
      obtain ⟨r', po, hr', R⟩ := swapPtr_pure hvu p.oAddr (registerCallback p now)
        (registerCallback_address p now)
      rw [hr'] at h1
      cases h1
      have hsome := registerCallback_isSome p now (lookup u p.oAddr)
      obtain ⟨u', rfl⟩ := SwapRoot.exists_some R hsome
      obtain ⟨hl, hd, -, hb, -⟩ := addToCapabilityIndex_ok h2
      have hk₂ : Known (L ++ [p]) D k₂.defaultIndex := by
        rw [hd]
        refine hk.grow p.oAddr ⟨_, hk.conns_valid.choose_spec⟩ ⟨u', rfl, R.valid u' rfl⟩
          (fun a h => .inr h) (fun a => by rw [hu]; exact inPot_swapRoot_some R hsome a)
          (fun a => ?_)
        simp only [List.mem_append, List.mem_singleton, or_and_right, exists_or, exists_eq_left]
        rw [@eq_comm _ a, or_assoc, or_left_comm]
      have hr₂ : Reads isSameAs (L ++ [p]) k₂ :=
        Reads.updateIndices (fun _ _ hi hf => addToIndex_entry_reads hi hf) hr hl
      obtain ⟨h₁, h₂, h₃⟩ := registerLoop_known hk₂ hr₂ hrec
      rw [hb, setAddrs_base] at h₁ h₂ h₃
      rw [List.append_assoc, List.singleton_append] at h₁ h₂
      rw [List.takeWhile_cons_of_pos (by simpa)]
      exact ⟨h₁, h₂, h₃⟩

/-- `On` makes the peer's address known and live, and leaves the capability indices' addrs as they
are: a peer is added to their conns only. -/
theorem On_known {k : Kademlia} {p : Peer} {res : Kademlia × UInt8 × Bool}
    (hk : Known L D k.defaultIndex) (hr : Reads isSameAs L k)
    (h : k.On isSameAs p now = .ok res) :
    Known L (D ++ [p.bzzAddr.oAddr]) res.1.defaultIndex ∧ Reads isSameAs L res.1 ∧
      res.1.base = k.base := by
  obtain ⟨t, hc, ht⟩ := hk.conns_valid
  obtain ⟨u, hu, hvu⟩ := hk.addrs_valid
  unfold Kademlia.On at h
  obtain ⟨⟨r, ins⟩, h1, h⟩ := bind_eq_ok h
  obtain ⟨k₂, h2, h⟩ := bind_eq_ok h
  obtain ⟨k₃, h3, h⟩ := bind_eq_ok h
  cases h
  obtain ⟨r₀, po, hr₀, R⟩ :=
    swapPtr_onCallback ht p.bzzAddr.oAddr (newEntryFromPeer p now) rfl
  rw [hc, hr₀] at h1
  cases h1
  have hsome : (if lookup t p.bzzAddr.oAddr = none then some (newEntryFromPeer p now)
      else lookup t p.bzzAddr.oAddr).isSome := by
    split <;> simp_all [Option.isSome_iff_ne_none]
  obtain ⟨t', rfl⟩ := SwapRoot.exists_some R hsome
  obtain ⟨hl, hd, -, hb, -⟩ := addToCapabilityIndex_ok h2
  have hr₂ : Reads isSameAs L k₂ := Reads.updateIndices (fun _ _ hi hf =>
    let ⟨hc', ha'⟩ := addToIndex_peer_addrs hf; hi.of_eq hc' ha') hr hl
  -- `onAddrs` runs when the address was not live; otherwise the address was already known.
  obtain ⟨u', hc₃, ha₃, hv₃, hiff, hidx₃, hb₃⟩ : ∃ u', k₃.defaultIndex.conns = some t' ∧
      k₃.defaultIndex.addrs = some u' ∧ Valid u' ∧
      (∀ a, inPot (some u') a = true ↔ a = p.bzzAddr.oAddr ∨ inPot (some u) a = true) ∧
      k₃.capabilityIndex = k₂.capabilityIndex ∧ k₃.base = k₂.base := by
    have hk₂ : k₂.defaultIndex.addrs = some u := by rw [hd, setConns_defaultIndex]; exact hu
    split at h3
    · obtain ⟨u', rfl, R'⟩ := onAddrs_ok hk₂ hvu h3
      refine ⟨u', by rw [setAddrs_defaultIndex, hd]; rfl, rfl, R'.valid u' rfl,
        inPot_swapRoot_some R' rfl, rfl, rfl⟩
    · rename_i hins
      cases h3
      have hlive : inPot (some t) p.bzzAddr.oAddr = true := by
        simpa [inPot, Option.isSome_iff_ne_none] using hins
      have := hk.conns_sub _ (hc ▸ hlive)
      rw [hu] at this
      refine ⟨u, by rw [hd]; rfl, hk₂, hvu, fun a => ⟨.inr, ?_⟩, rfl, rfl⟩
      rintro (rfl | h)
      exacts [this, h]
  refine ⟨?_, ?_, ?_⟩
  · rw [onFinish_defaultIndex]
    refine hk.grow p.bzzAddr.oAddr ⟨t', hc₃, R.valid t' rfl⟩ ⟨u', ha₃, hv₃⟩ (fun a h => ?_) (fun a => ?_)
      (fun a => ?_)
    · rw [hc₃, inPot_swapRoot_some R hsome, ← hc] at h
      exact h
    · rw [ha₃, hiff, hu]
    · rw [List.mem_append, List.mem_singleton]
      exact or_rotate
  · exact Reads.setNeighbourhoodDepth fun e he => hr₂ e (hidx₃ ▸ he)
  · exact hb₃.trans hb

/-- `Off` of a live peer keeps its address known and makes it not live; the capability indices'
addrs are as they were: `Off` removes from their conns only. -/
theorem Off_known {k k' : Kademlia} {p : Peer} (hk : Known L D k.defaultIndex)
    (hr : Reads isSameAs L k) (hlive : k.connected p.bzzAddr.oAddr = true)
    (h : k.Off p now = .ok k') :
    Known L D k'.defaultIndex ∧ Reads isSameAs L k' ∧ k'.base = k.base := by
  obtain ⟨t, hc, ht⟩ := hk.conns_valid
  obtain ⟨u, hu, hvu⟩ := hk.addrs_valid
  rw [connected_eq_inPot] at hlive
  have hknown := hk.conns_sub _ hlive
  rw [hc] at hlive
  rw [hu] at hknown
  obtain ⟨e, he⟩ := Option.isSome_iff_exists.1 hknown
  unfold Kademlia.Off at h
  obtain ⟨res₁, h1, h⟩ := bind_eq_ok h
  obtain ⟨res₂, h2, h⟩ := bind_eq_ok h
  obtain ⟨k₃, h3, h⟩ := bind_eq_ok h
  cases h
  rw [hu] at h1
  obtain ⟨r₁, po₁, hr₁, R₁⟩ := swapPtr_offCallback hvu _ p now he rfl
  rw [hr₁] at h1
  cases h1
  obtain ⟨u', rfl⟩ := SwapRoot.exists_some R₁ rfl
  simp only [setAddrs_defaultIndex, hc] at h2
  obtain ⟨r, po, hr', R⟩ := swapPtr_pure ht p.bzzAddr.oAddr (fun _ => none) (by simp)
  rw [hr'] at h2
  cases h2
  obtain ⟨t', rfl⟩ := SwapRoot.exists_some_of_lookup R hlive
  obtain ⟨hl, hd, -, hb, -⟩ := removeFromCapabilityIndex_peer_ok h3
  refine ⟨?_, Reads.setNeighbourhoodDepth (Reads.updateIndices (fun _ _ hi hf =>
    let ⟨hc', ha'⟩ := removeFromIndex_addrs hf; hi.of_eq hc' ha') hr hl), hb⟩
  rw [setNeighbourhoodDepth_defaultIndex, hd]
  refine hk.grow p.bzzAddr.oAddr ⟨t', rfl, R.valid t' rfl⟩ ⟨u', rfl, R₁.valid u' rfl⟩
    (fun a h => ?_) (fun a => ?_) (fun a => ⟨fun h => h.elim ?_ id, .inr⟩)
  · simp only [setConns_defaultIndex, setAddrs_defaultIndex] at h
    rw [inPot_swapRoot R] at h
    split at h
    · cases h
    · exact .inr (hc ▸ h)
  · simp only [setConns_defaultIndex, setAddrs_defaultIndex]
    rw [inPot_swapRoot_some R₁ rfl, hu]
  · rintro rfl
    exact (hk.addrs_iff _).1 (hu ▸ hknown)

end Ops

/-- `RegisterCapabilityIndex` adds an empty index, which reads no address. -/
theorem RegisterCapabilityIndex_reads {k : Kademlia} (s : String) (c : Capability)
    (hr : Reads isSameAs [] k) : Reads isSameAs [] (k.RegisterCapabilityIndex s c).1 := by
  obtain ⟨-, -, -, -, hl | ⟨-, hl⟩⟩ := RegisterCapabilityIndex_fst (k := k) s c
  · exact fun e he => hr e (hl ▸ he)
  · intro e he
    rw [hl, List.mem_append, List.mem_singleton] at he
    rcases he with he | rfl
    · exact hr e he
    · exact ⟨c, rfl, ⟨empty, rfl, .inl rfl⟩, fun a => by simp [NewCapabilityIndex, inPot, lookup]⟩

/-! ## Runs -/

/-- A call other than `RegisterCapabilityIndex` adds what it stores and dials to the invariants. -/
theorem call_known {k k' : Kademlia} {c : Call} (hk : Known L D k.defaultIndex)
    (hr : Reads isSameAs L k) (hallowed : offLive k c) (hc : c.isIndex = false)
    (h : k.call isSameAs c = .ok k') :
    Known (L ++ c.stored k.base) (D ++ c.dialled) k'.defaultIndex ∧
      Reads isSameAs (L ++ c.stored k.base) k' ∧ k'.base = k.base := by
  rcases c with ⟨s, cap⟩ | ⟨peers, now⟩ | ⟨p, now⟩ | ⟨p, now⟩
  · cases hc
  · obtain ⟨r, hr', h⟩ := bind_eq_ok h
    cases h
    simp only [Call.dialled, List.append_nil]
    exact registerLoop_known hk hr hr'
  · obtain ⟨r, hr', h⟩ := bind_eq_ok h
    cases h
    simp only [Call.stored, List.append_nil]
    exact On_known hk hr hr'
  · simp only [Call.stored, Call.dialled, List.append_nil]
    exact Off_known hk hr hallowed h

/-- Every run of `Register`, `On` and `Off` calls, with `Off` only of a live peer, adds the
addresses the calls store or dial to the default addrs, and those they store to what the capability
indices read. -/
theorem known_run {k₀ k : Kademlia} {calls : List Call} (h : Run isSameAs offLive k₀ calls k)
    (hk : Known L D k₀.defaultIndex) (hr : Reads isSameAs L k₀)
    (hcalls : ∀ c ∈ calls, c.isIndex = false) :
    Known (L ++ calls.flatMap (Call.stored k₀.base)) (D ++ calls.flatMap Call.dialled)
        k.defaultIndex ∧
      Reads isSameAs (L ++ calls.flatMap (Call.stored k₀.base)) k ∧ k.base = k₀.base := by
  induction h with
  | nil => simpa using ⟨hk, hr⟩
  | snoc _ hallowed hcall ih =>
    obtain ⟨hk', hr', hb⟩ := ih fun c hc => hcalls c (List.mem_append_left _ hc)
    have := call_known hk' hr' hallowed (hcalls _ (by simp)) hcall
    rw [hb] at this
    simpa [List.flatMap_append, List.append_assoc] using this

/-- A run of calls that register capability indices keeps the default index and the base, and leaves
every capability index with empty addrs. -/
theorem indices_run {k₀ k : Kademlia} {regs : List Call} (h : Run isSameAs offLive k₀ regs k)
    (hregs : ∀ c ∈ regs, c.isIndex = true) (hr : Reads isSameAs [] k₀) :
    Reads isSameAs [] k ∧ k.defaultIndex = k₀.defaultIndex ∧ k.base = k₀.base := by
  induction h with
  | nil => exact ⟨hr, rfl, rfl⟩
  | @snoc _ _ _ c _ _ hcall ih =>
    obtain ⟨hr', hd, hb⟩ := ih fun c hc => hregs c (List.mem_append_left _ hc)
    have hc := hregs c (by simp)
    cases c with
    | registerCapabilityIndex s cap =>
      cases hcall
      obtain ⟨hd', -, hb', -⟩ := RegisterCapabilityIndex_fst s cap
      exact ⟨RegisterCapabilityIndex_reads s cap hr', hd'.trans hd, hb'.trans hb⟩
    | _ => cases hc

/-- A new table knows no address. -/
theorem known_new (addr : Key 256) (params : KadParams) (full light : Capability) :
    Known [] [] (NewKademlia addr params full light).defaultIndex ∧
      Reads isSameAs [] (NewKademlia addr params full light) ∧
      (NewKademlia addr params full light).base = addr := by
  let k : Kademlia := ⟨[], List.nodup_nil, NewDefaultIndex, params, addr, 0, 0⟩
  obtain ⟨hd₁, -, hb₁, -⟩ := RegisterCapabilityIndex_fst (k := k) "full" full
  obtain ⟨hd₂, -, hb₂, -⟩ :=
    RegisterCapabilityIndex_fst (k := (k.RegisterCapabilityIndex "full" full).1) "light" light
  refine ⟨?_, RegisterCapabilityIndex_reads _ _ (RegisterCapabilityIndex_reads _ _ nofun),
    hb₂.trans hb₁⟩
  rw [NewKademlia, hd₂, hd₁]
  exact ⟨⟨empty, rfl, .inl rfl⟩, ⟨empty, rfl, .inl rfl⟩, fun a h => h,
    fun a => by simp [NewDefaultIndex, inPot, lookup]⟩

/-- In every state reached from `NewKademlia` by calls that register capability indices and then
by `Register`, `On` and `Off` calls, with `Off` only of a live peer: every capability index's addrs
hold exactly the addresses that the `Register` calls stored and that match the index's capability;
the default addrs hold the stored addresses and those of the peers that came `On`. -/
theorem addrs_of_run (isSameAs : Capability → Capability → Bool) {addr : Key 256}
    {params : KadParams} {full light : Capability} {regs calls : List Call} {k₁ k : Kademlia}
    (h₁ : Run isSameAs offLive (NewKademlia addr params full light) regs k₁)
    (hregs : ∀ c ∈ regs, c.isIndex = true) (h : Run isSameAs offLive k₁ calls k)
    (hcalls : ∀ c ∈ calls, c.isIndex = false) :
    (∀ s idx, (s, idx) ∈ k.capabilityIndex → ∃ c, idx.capability = some c ∧
      ∀ a, inPot idx.addrs a = true ↔
        ∃ b ∈ calls.flatMap (Call.stored addr), b.oAddr = a ∧ AddrMatches isSameAs b c) ∧
    ∀ a, inPot k.defaultIndex.addrs a = true ↔
      (∃ b ∈ calls.flatMap (Call.stored addr), b.oAddr = a) ∨ a ∈ calls.flatMap Call.dialled := by
  obtain ⟨hk₀, hr₀, hb₀⟩ : Known [] [] _ ∧ Reads isSameAs [] _ ∧ _ :=
    known_new addr params full light
  obtain ⟨hr₁, hd₁, hb₁⟩ := indices_run h₁ hregs hr₀
  obtain ⟨hk, hr, -⟩ := known_run h (hd₁ ▸ hk₀) hr₁ hcalls
  rw [hb₁, hb₀, List.nil_append] at hk hr
  refine ⟨fun s idx he => ?_, hk.addrs_iff⟩
  obtain ⟨c, hc, -, hiff⟩ := hr _ he
  exact ⟨c, hc, hiff⟩

set_option maxRecDepth 10000 in
/-- On a new table, `Register` of an address with the full capability puts it in the index of that
capability. -/
theorem addrs_of_run_register :
    ∃ k, Run (fun a b => a == b) offLive (NewKademlia zeroKey NewKadParams ⟨0, [true]⟩ ⟨1, []⟩)
        [.register [⟨farKey, [1], [⟨0, [true]⟩]⟩] 0] k ∧
      ∀ s idx, (s, idx) ∈ k.capabilityIndex → idx.capability = some ⟨0, [true]⟩ →
        inPot idx.addrs farKey = true := by
  let same : Capability → Capability → Bool := fun a b => a == b
  let k₀ := NewKademlia zeroKey NewKadParams ⟨0, [true]⟩ ⟨1, []⟩
  let b : BzzAddr := ⟨farKey, [1], [⟨0, [true]⟩]⟩
  let k₁ := (k₀.call same (.register [b] 0)).toOption.getD k₀
  have h₁ : k₀.call same (.register [b] 0) = .ok k₁ := rfl
  have hrun : Run same offLive k₀ [.register [b] 0] k₁ := Run.snoc (Run.nil k₀) trivial h₁
  refine ⟨k₁, hrun, fun s idx he hc => ?_⟩
  obtain ⟨c, hc', hiff⟩ :=
    (addrs_of_run same (.nil k₀) (by simp) hrun (by decide)).1 s idx he
  rw [hc, Option.some.injEq] at hc'
  subst hc'
  exact (hiff farKey).2 ⟨b, by decide, rfl, ⟨0, [true]⟩, .head _, rfl, rfl⟩

set_option maxRecDepth 10000 in
/-- A peer that comes `On` without having been registered: the default addrs hold its address,
with the capability of the index "full", and the addrs of that index do not. -/
theorem capability_addrs_miss_on :
    ∃ k, Run (fun a b => a == b) offLive (NewKademlia zeroKey NewKadParams ⟨0, [true]⟩ ⟨1, []⟩)
        [.on ⟨0, ⟨farKey, [1], [⟨0, [true]⟩]⟩⟩ 0] k ∧
      (k.defaultIndex.addrs.bind fun u => lookup u farKey).map (·.bzzAddr.capabilities) =
        some [⟨0, [true]⟩] ∧
      (k.capabilityIndex.lookup "full").map (fun idx => (idx.capability, inPot idx.addrs farKey)) =
        some (some ⟨0, [true]⟩, false) := by
  let same : Capability → Capability → Bool := fun a b => a == b
  let k₀ := NewKademlia zeroKey NewKadParams ⟨0, [true]⟩ ⟨1, []⟩
  let p : Peer := ⟨0, ⟨farKey, [1], [⟨0, [true]⟩]⟩⟩
  let k₁ := (k₀.call same (.on p 0)).toOption.getD k₀
  have h₁ : k₀.call same (.on p 0) = .ok k₁ := rfl
  exact ⟨k₁, Run.snoc (Run.nil k₀) trivial h₁, by decide, by decide⟩

end Swarm.Network
