import Swarm.Network.Health

/-!
# The walks filtered by capability

`EachConnFiltered`, `EachAddrFiltered` and `EachBinDescFiltered` of network/kademlia.go run the
walks `eachConn`, `eachAddr` and `eachBinDesc` over the pots of the capability index a key names,
and fail on a key no index has. The three look the key up alike (`filteredIndex`);
`EachBinDescFiltered` words its error in lower case.

`eachConn` walks the default conns when it is handed a nil pot, so a filtered walk over an index
without a conns pot would hand out every connection. Read `filtered_walks_of_run`: in every state
of a run a registered index has a valid conns pot of live peers, so `EachConnFiltered` hands its
function the index's peers, each once and nearest first, and `EachBinDescFiltered` presents the
index's bins deepest first.
-/

namespace Swarm.Network

open Pot

namespace Kademlia

variable {σ : Type}

/-- The lookup the filtered walks start with: the index `capKey` names, or the error
`fmt.Errorf(pre + "%s'", capKey)` of an unregistered key. -/
def filteredIndex (k : Kademlia) (pre capKey : String) : Except String CapabilityIndex :=
  match k.capabilityIndex.lookup capKey with
  | some c => .ok c
  | none => .error (pre ++ capKey ++ "'")

/-- `EachConnFiltered`. -/
def EachConnFiltered (k : Kademlia) (base : Key 256) (capKey : String) (o : Nat)
    (f : Option Peer → Nat → σ → σ × Bool) (s : σ) : Except String σ := do
  let c ← k.filteredIndex "Unregistered capability index '" capKey
  pure (k.eachConn base c.conns o f s)

/-- `EachAddrFiltered`. -/
def EachAddrFiltered (k : Kademlia) (base : Key 256) (capKey : String) (o : Nat)
    (f : BzzAddr → Nat → σ → σ × Bool) (s : σ) : Except String σ := do
  let c ← k.filteredIndex "Unregistered capability index '" capKey
  pure (k.eachAddr base c.addrs o f s)

/-- `eachBinDesc`: the bins of an index's conns from `base`, deepest first and none below
`minPO`. A `PeerBin` carries a bin's order, its size and an iterator over the same entries, so
the consumer is handed the `Bin` itself. A nil pot presents no bin. -/
def eachBinDesc (index : CapabilityIndex) (base : Key 256) (minPO : Nat)
    (consumer : Bin Entry → σ → σ × Bool) (s : σ) : σ :=
  match index.conns with
  | none => s
  | some t => EachBin t base.bits pof minPO consumer false s

/-- `EachBinDesc`: `eachBinDesc` over the default index. -/
def EachBinDesc (k : Kademlia) (base : Key 256) (minPO : Nat)
    (consumer : Bin Entry → σ → σ × Bool) (s : σ) : σ :=
  Kademlia.eachBinDesc k.defaultIndex base minPO consumer s

/-- `EachBinDescFiltered`. -/
def EachBinDescFiltered (k : Kademlia) (base : Key 256) (capKey : String) (minPO : Nat)
    (consumer : Bin Entry → σ → σ × Bool) (s : σ) : Except String σ := do
  let c ← k.filteredIndex "unregistered capability index '" capKey
  pure (Kademlia.eachBinDesc c base minPO consumer s)

/-- `filteredIndex` of a registered capability key returns its index. -/
theorem filteredIndex_of_lookup {k : Kademlia} {capKey : String} {idx : CapabilityIndex}
    (hs : k.capabilityIndex.lookup capKey = some idx) (pre : String) :
    k.filteredIndex pre capKey = .ok idx := by
  rw [filteredIndex, hs]

end Kademlia

open Kademlia

/-- In every state reached from `NewKademlia` by calls that take `Off` only of a live peer, the
filtered walks fail with their own error on an unregistered key. On a registered one the index
has a valid conns pot of live peers: `EachConnFiltered` hands its function these peers, each once
with its order from `base`, nearest first, and `EachBinDescFiltered` presents the bins grouping
them by order, deepest first. -/
theorem filtered_walks_of_run (isSameAs : Capability → Capability → Bool) {addr : Key 256}
    {params : KadParams} {full light : Capability} {calls : List Call} {k : Kademlia}
    (h : Run isSameAs offLive (NewKademlia addr params full light) calls k) (base : Key 256)
    (capKey : String) :
    (k.capabilityIndex.lookup capKey = none →
      (∀ {σ : Type} o f (s : σ), k.EachConnFiltered base capKey o f s =
        .error ("Unregistered capability index '" ++ capKey ++ "'")) ∧
      (∀ {σ : Type} o f (s : σ), k.EachAddrFiltered base capKey o f s =
        .error ("Unregistered capability index '" ++ capKey ++ "'")) ∧
      ∀ {σ : Type} minPO consumer (s : σ), k.EachBinDescFiltered base capKey minPO consumer s =
        .error ("unregistered capability index '" ++ capKey ++ "'")) ∧
    ∀ idx, k.capabilityIndex.lookup capKey = some idx → ∃ c, idx.conns = some c ∧
      (∀ v ∈ vals c, k.connected (address v) = true) ∧
      (∃ L : List (Entry × Nat), (L.map Prod.fst).Perm (vals c) ∧
        (∀ p ∈ L, p.2 = cpl (address p.1).bits base.bits) ∧ (L.map Prod.snd).Pairwise (· ≥ ·) ∧
        ∀ {σ : Type} o f (s : σ), k.EachConnFiltered base capKey o f s =
          .ok (feed (fun p s => if p.2 > o then (s, true) else f p.1.conn p.2 s) L s).1) ∧
      ∀ minPO, Groups base minPO (binsOf base.bits pof minPO c) (vals c) ∧
        ∀ {σ : Type} consumer (s : σ), k.EachBinDescFiltered base capKey minPO consumer s =
          .ok (feed consumer (binsOf base.bits pof minPO c).reverse s).1 := by
  obtain ⟨hcov, -⟩ := coherent_run isSameAs h (coherent_new addr params full light)
  refine ⟨fun hn => ?_, fun idx hs => ?_⟩
  · have herr : ∀ pre, k.filteredIndex pre capKey = .error (pre ++ capKey ++ "'") := fun pre => by
      rw [filteredIndex, hn]
    exact ⟨fun o f s => by rw [EachConnFiltered, herr]; rfl,
      fun o f s => by rw [EachAddrFiltered, herr]; rfl,
      fun minPO consumer s => by rw [EachBinDescFiltered, herr]; rfl⟩
  · obtain ⟨l₁, l₂, hl, -⟩ := List.lookup_eq_some_iff.1 hs
    have hmem : IndexView.of (capKey, idx) ∈ k.connsView.indices :=
      List.mem_map_of_mem _ (hl ▸ List.mem_append_right _ (.head _))
    obtain ⟨c, hc, hv⟩ := hcov.index_valid _ hmem
    replace hc : idx.conns = some c := hc
    obtain ⟨L, hperm, hcpl, hsorted, hfeed⟩ := eachNeighbour_valid hv base
    refine ⟨c, hc, fun v hvc => hcov.conns_sub _ hmem _ ?_,
      ⟨L, hperm, hcpl, hsorted, fun o f s => ?_⟩, fun minPO => ⟨groups_of_valid base minPO hv,
        fun consumer s => ?_⟩⟩
    · show inPot idx.conns (address v) = true
      rw [hc, inPot, lookup_of_mem hv hvc]
      rfl
    · rw [EachConnFiltered, filteredIndex_of_lookup hs]
      simp only [bind, Except.bind, pure, Except.pure, eachConn, hc, Option.isNone_some,
        Bool.false_eq_true, if_false]
      exact congrArg Except.ok (hfeed _ s)
    · rw [EachBinDescFiltered, filteredIndex_of_lookup hs]
      simp only [bind, Except.bind, pure, Except.pure, Kademlia.eachBinDesc, hc]
      exact congrArg Except.ok (eachBin_desc_of_valid hv _ _ _ _ _)

/-- The filtered walks over the index of full nodes after one peer connects to a new table. -/
theorem filtered_walks_of_run_on :
    ∃ k, Run (fun a b => a == b) offLive (NewKademlia zeroKey NewKadParams ⟨0, [true]⟩ ⟨1, []⟩)
        [.on ⟨0, ⟨farKey, [1], [⟨0, [true]⟩]⟩⟩ 0] k ∧
      (k.capabilityIndex.lookup "full" = none →
        (∀ {σ : Type} o f (s : σ), k.EachConnFiltered zeroKey "full" o f s =
          .error ("Unregistered capability index '" ++ "full" ++ "'")) ∧
        (∀ {σ : Type} o f (s : σ), k.EachAddrFiltered zeroKey "full" o f s =
          .error ("Unregistered capability index '" ++ "full" ++ "'")) ∧
        ∀ {σ : Type} minPO consumer (s : σ), k.EachBinDescFiltered zeroKey "full" minPO consumer s =
          .error ("unregistered capability index '" ++ "full" ++ "'")) ∧
      ∀ idx, k.capabilityIndex.lookup "full" = some idx → ∃ c, idx.conns = some c ∧
        (∀ v ∈ vals c, k.connected (address v) = true) ∧
        (∃ L : List (Entry × Nat), (L.map Prod.fst).Perm (vals c) ∧
          (∀ p ∈ L, p.2 = cpl (address p.1).bits zeroKey.bits) ∧
          (L.map Prod.snd).Pairwise (· ≥ ·) ∧
          ∀ {σ : Type} o f (s : σ), k.EachConnFiltered zeroKey "full" o f s =
            .ok (feed (fun p s => if p.2 > o then (s, true) else f p.1.conn p.2 s) L s).1) ∧
        ∀ minPO, Groups zeroKey minPO (binsOf zeroKey.bits pof minPO c) (vals c) ∧
          ∀ {σ : Type} consumer (s : σ), k.EachBinDescFiltered zeroKey "full" minPO consumer s =
            .ok (feed consumer (binsOf zeroKey.bits pof minPO c).reverse s).1 := by
  let same : Capability → Capability → Bool := fun a b => a == b
  let k₀ := NewKademlia zeroKey NewKadParams ⟨0, [true]⟩ ⟨1, []⟩
  let p : Peer := ⟨0, ⟨farKey, [1], [⟨0, [true]⟩]⟩⟩
  let k₁ := (k₀.call same (.on p 0)).toOption.getD k₀
  have hrun : Run same offLive k₀ [.on p 0] k₁ := Run.snoc (Run.nil k₀) trivial rfl
  exact ⟨k₁, hrun, filtered_walks_of_run same hrun zeroKey "full"⟩

end Swarm.Network
