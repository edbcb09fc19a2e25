import Swarm.Network.Ops

/-!
# Connection flags

An overlay address is live when the default conns hold it. `Flags` says that the default pots
agree on connections: the conns entry of a live address holds its peer, and every address's addrs
entry holds the same connection as its conns entry, none when it is not live. `On`, `Off` (of a
live address) and `RegisterCapabilityIndex` keep this, and so does `Register` unless it is given
a live address under an underlay address other than its addrs entry's: `Register` then replaces
the entry of a live peer by an offline one (`register_offlines_live`). Under that condition every
run keeps the flags (`flags_agree_keepsLive`).
-/

namespace Swarm.Network

open Pot Kademlia

/-- The default pots agree on connections. -/
structure Flags (conns addrs : Pot Entry) : Prop where
  conns_valid : Valid conns
  addrs_valid : Valid addrs
  live : ∀ a ce, lookup conns a = some ce → ce.conn.isSome
  agree : ∀ a, (lookup addrs a).bind Entry.conn = (lookup conns a).bind Entry.conn

/-- The default index has both pots and they agree on connections. -/
def FlagsInv (idx : CapabilityIndex) : Prop :=
  ∃ conns addrs, idx.conns = some conns ∧ idx.addrs = some addrs ∧ Flags conns addrs

/-- The connection flags of the default index agree: an overlay address is live exactly when its
addrs entry has a connection, and that connection is the peer of its conns entry. -/
def ConnFlagsAgree (k : Kademlia) : Prop :=
  ∃ conns addrs, k.defaultIndex.conns = some conns ∧ k.defaultIndex.addrs = some addrs ∧
    ∀ a, ((lookup conns a).isSome ↔ ∃ e, lookup addrs a = some e ∧ e.conn.isSome) ∧
      ∀ ce e, lookup conns a = some ce → lookup addrs a = some e → e.conn.isSome → e.conn = ce.conn

/-- Default pots whose flags hold have connection flags that agree. -/
theorem Flags.connFlagsAgree {k : Kademlia} (h : FlagsInv k.defaultIndex) : ConnFlagsAgree k := by
  obtain ⟨t, u, hc, ha, hf⟩ := h
  refine ⟨t, u, hc, ha, fun a => ⟨⟨fun hl => ?_, fun ⟨e, he, hconn⟩ => ?_⟩, fun ce e hce he _ => ?_⟩⟩
  · obtain ⟨ce, hce⟩ := Option.isSome_iff_exists.1 hl
    obtain ⟨q, hq⟩ := Option.isSome_iff_exists.1 (hf.live a ce hce)
    have := hf.agree a
    rw [hce, Option.some_bind, hq, Option.bind_eq_some] at this
    obtain ⟨e, he, heq⟩ := this
    exact ⟨e, he, by simp [heq]⟩
  · obtain ⟨q, hq⟩ := Option.isSome_iff_exists.1 hconn
    have := hf.agree a
    rw [he, Option.some_bind, hq] at this
    exact Option.isSome_iff_exists.2 (by
      obtain ⟨ce, hce, -⟩ := Option.bind_eq_some.1 this.symm
      exact ⟨ce, hce⟩)
  · simpa [hce, he] using hf.agree a

/-- The callback of `Register` always stores an entry. -/
theorem registerCallback_isSome (p : BzzAddr) (now : Int) (v : Option Entry) :
    (registerCallback p now v).isSome := by
  cases v with
  | none => rfl
  | some e => simp only [registerCallback]; split <;> rfl

/-- An overlay address is connected exactly when the default conns pot holds it. -/
theorem connected_of_conns {k : Kademlia} {t : Pot Entry} (hc : k.defaultIndex.conns = some t)
    (a : Key 256) : k.connected a = (lookup t a).isSome := by
  simp [Kademlia.connected, hc]

namespace Flags

variable {t u : Pot Entry} (hf : Flags t u)

include hf

/-- Replacing the addrs entry of `key` by one with the connection of its conns entry keeps the
flags. -/
theorem setAddrs {u' : Pot Entry} {key : Key 256} {new : Option Entry}
    (R : SwapRoot u key new (some u')) (hnew : new.bind Entry.conn = (lookup t key).bind Entry.conn) :
    Flags t u' where
  conns_valid := hf.conns_valid
  addrs_valid := R.valid u' rfl
  live := hf.live
  agree a := by
    rw [R.lookup_eq u' rfl]
    split
    · subst_vars; exact hnew
    · exact hf.agree a

/-- Storing a live entry in conns and an entry with its connection in addrs keeps the flags. -/
theorem connect {t' u' : Pot Entry} {key : Key 256} {pe a : Entry}
    (Rc : SwapRoot t key (some pe) (some t')) (Ra : SwapRoot u key (some a) (some u'))
    (hpe : pe.conn.isSome) (ha : a.conn = pe.conn) : Flags t' u' where
  conns_valid := Rc.valid t' rfl
  addrs_valid := Ra.valid u' rfl
  live b ce hce := by
    rw [Rc.lookup_eq t' rfl] at hce
    split at hce
    · cases hce; exact hpe
    · exact hf.live b ce hce
  agree b := by
    rw [Rc.lookup_eq t' rfl, Ra.lookup_eq u' rfl]
    split
    · simpa using ha
    · exact hf.agree b

/-- Removing `key` from conns and storing an offline entry for it in addrs keeps the flags. -/
theorem disconnect {t' u' : Pot Entry} {key : Key 256} {e : Entry}
    (Ra : SwapRoot u key (some e) (some u')) (he : e.conn = none) (Rc : SwapRoot t key none (some t')) :
    Flags t' u' where
  conns_valid := Rc.valid t' rfl
  addrs_valid := Ra.valid u' rfl
  live b ce hce := by
    rw [Rc.lookup_eq t' rfl] at hce
    split at hce
    · cases hce
    · exact hf.live b ce hce
  agree b := by
    rw [Rc.lookup_eq t' rfl, Ra.lookup_eq u' rfl]
    split
    · simpa using he
    · exact hf.agree b

/-- A live address has an addrs entry. -/
theorem addrs_of_live {key : Key 256} {ce : Entry} (hce : lookup t key = some ce) :
    ∃ e, lookup u key = some e ∧ e.conn = ce.conn := by
  obtain ⟨q, hq⟩ := Option.isSome_iff_exists.1 (hf.live key ce hce)
  have := hf.agree key
  rw [hce, Option.some_bind, hq, Option.bind_eq_some] at this
  obtain ⟨e, he, heq⟩ := this
  exact ⟨e, he, heq.trans hq.symm⟩

/-- With no known address there is no connection. -/
theorem conns_nil (hnil : vals u = []) : vals t = [] :=
  List.eq_nil_iff_forall_not_mem.2 fun v hv => by
    have hl := lookup_of_mem hf.conns_valid hv
    have hagree := hf.agree (address v)
    obtain ⟨p, hp⟩ := Option.isSome_iff_exists.1 (hf.live _ v hl)
    rw [hl, Option.some_bind, hp, lookup, hnil] at hagree
    cases hagree

/-- A known address without a connection is the address of no connection. -/
theorem address_ne_of_conn_none {ce e : Entry} (hce : ce ∈ vals t) (he : e ∈ vals u)
    (hn : e.conn = none) : address e ≠ address ce := fun heq => by
  have hlive := lookup_of_mem hf.conns_valid hce
  obtain ⟨e', he', hconn⟩ := hf.addrs_of_live hlive
  rw [← heq, lookup_of_mem hf.addrs_valid he] at he'
  cases he'
  obtain ⟨q, hq⟩ := Option.isSome_iff_exists.1 (hf.live _ ce hlive)
  rw [hn, hq] at hconn
  cases hconn

/-- `Register`'s callback keeps the connection of a live address whose addrs entry has the
registered underlay address. -/
theorem registerCallback_agree (p : BzzAddr) (now : Int)
    (hg : (lookup t p.oAddr).isSome = true →
      ∀ e, lookup u p.oAddr = some e → e.bzzAddr.uAddr = p.uAddr) :
    (registerCallback p now (lookup u p.oAddr)).bind Entry.conn =
      (lookup t p.oAddr).bind Entry.conn := by
  have hagree := hf.agree p.oAddr
  cases hu : lookup u p.oAddr with
  | none =>
    rw [hu] at hagree
    simpa [registerCallback, newEntryFromBzzAddress] using hagree
  | some e =>
    rw [hu] at hagree
    by_cases he : e.bzzAddr.uAddr = p.uAddr
    · simpa [registerCallback, he] using hagree
    · have hnone : lookup t p.oAddr = none := by
        cases ht : lookup t p.oAddr with
        | none => rfl
        | some ce => exact absurd (hg (by simp [ht]) e hu) he
      simp [registerCallback, he, newEntryFromBzzAddress, hnone]

end Flags

/-- The entry `Register`'s callback stores is under the registered address. -/
theorem registerCallback_address {u : Pot Entry} (p : BzzAddr) (now : Int) (w : Entry)
    (hw : registerCallback p now (lookup u p.oAddr) = some w) : address w = p.oAddr := by
  cases hu : lookup u p.oAddr with
  | none => rw [hu] at hw; cases hw; rfl
  | some e =>
    rw [hu] at hw
    have he : address e = p.oAddr := by simpa using List.find?_some hu
    simp only [registerCallback] at hw
    split at hw <;> cases hw
    · rfl
    · exact he

/-- The calls that keep live addresses live: `Off` only of a live address, and `Register` never of
a live address under an underlay address other than its addrs entry's. -/
def keepsLive (k : Kademlia) : Call → Prop
  | .register peers _ => ∀ q ∈ peers, k.connected q.oAddr = true →
      ∀ u e, k.defaultIndex.addrs = some u → lookup u q.oAddr = some e → e.bzzAddr.uAddr = q.uAddr
  | .off p _ => k.connected p.bzzAddr.oAddr = true
  | _ => True


section Preservation

variable (isSameAs : Capability → Capability → Bool)

/-- `On` keeps the flags of the default pots. -/
theorem On_flags {k : Kademlia} {p : Peer} {now : Int} {res : Kademlia × UInt8 × Bool}
    (hk : FlagsInv k.defaultIndex) (h : k.On isSameAs p now = .ok res) :
    FlagsInv res.1.defaultIndex := by
  obtain ⟨t, u, hc, ha, hf⟩ := hk
  unfold Kademlia.On at h
  obtain ⟨⟨r, ins⟩, h1, h⟩ := bind_eq_ok h
  obtain ⟨k2, h2, h⟩ := bind_eq_ok h
  obtain ⟨k3, h3, h⟩ := bind_eq_ok h
  cases h
  obtain ⟨r0, po, hr0, Rc⟩ :=
    swapPtr_onCallback hf.conns_valid p.bzzAddr.oAddr (newEntryFromPeer p now) rfl
  rw [hc, hr0] at h1
  cases h1
  obtain ⟨-, hd2, -, -⟩ := addToCapabilityIndex_ok h2
  rw [onFinish_defaultIndex]
  cases hl : lookup t p.bzzAddr.oAddr with
  | none =>
    simp only [hl, Option.isNone_none, if_true] at h3 Rc
    obtain ⟨t', rfl⟩ := SwapRoot.exists_some Rc rfl
    obtain ⟨u', rfl, Ra⟩ := onAddrs_ok (by rw [hd2]; exact ha) hf.addrs_valid h3
    exact ⟨t', u', by simp [hd2], rfl, hf.connect Rc Ra rfl rfl⟩
  | some ce =>
    simp only [hl, Option.isNone_some, Bool.false_eq_true, if_false, reduceCtorEq] at h3 Rc
    cases h3
    cases Rc.unchanged hl.symm (valid_pin_isSome hf.conns_valid hl)
    exact ⟨t, u, by simp [hd2], by simp [hd2, ha], hf⟩

/-- `Off` of a live peer keeps the flags of the default pots. -/
theorem Off_flags {k k' : Kademlia} {p : Peer} {now : Int} (hk : FlagsInv k.defaultIndex)
    (hlive : k.connected p.bzzAddr.oAddr = true) (h : k.Off p now = .ok k') :
    FlagsInv k'.defaultIndex := by
  obtain ⟨t, u, hc, ha, hf⟩ := hk
  unfold Kademlia.Off at h
  obtain ⟨res₁, h1, h⟩ := bind_eq_ok h
  obtain ⟨res₂, h2, h⟩ := bind_eq_ok h
  obtain ⟨k₃, h3, h⟩ := bind_eq_ok h
  cases h
  rw [connected_of_conns hc] at hlive
  obtain ⟨ce, hce⟩ := Option.isSome_iff_exists.1 hlive
  obtain ⟨e, he, -⟩ := hf.addrs_of_live hce
  obtain ⟨ra, po, hra, Ra⟩ := swapPtr_offCallback hf.addrs_valid p.bzzAddr.oAddr p now he rfl
  rw [ha, hra] at h1
  cases h1
  obtain ⟨u', rfl⟩ := SwapRoot.exists_some Ra rfl
  simp only [setAddrs_defaultIndex, hc] at h2
  obtain ⟨rc, po', hrc, Rc⟩ := swapPtr_pure hf.conns_valid p.bzzAddr.oAddr (fun _ => none) (by simp)
  rw [hrc] at h2
  cases h2
  obtain ⟨t', rfl⟩ := SwapRoot.exists_some_of_lookup Rc (by rw [hce]; rfl)
  obtain ⟨-, hd3, -, -⟩ := removeFromCapabilityIndex_peer_ok h3
  exact ⟨t', u', by simp [hd3], by simp [hd3], hf.disconnect Ra rfl Rc⟩

/-- The loop of `Register` keeps the flags of the default pots when it registers no live address
under another underlay address. -/
theorem registerLoop_flags {now : Int} :
    ∀ {peers : List BzzAddr} {k : Kademlia} {r : Kademlia × Option String},
      FlagsInv k.defaultIndex → keepsLive k (.register peers now) →
      registerLoop isSameAs k now peers = .ok r → FlagsInv r.1.defaultIndex
  | [], k, r, hk, _, h => by
    simp only [registerLoop] at h
    cases h
    exact hk
  | p :: peers, k, r, hk, hg, h => by
    simp only [registerLoop] at h
    split at h
    · cases h
      exact hk
    · obtain ⟨t, u, hc, ha, hf⟩ := hk
      obtain ⟨res, h1, h⟩ := bind_eq_ok h
      obtain ⟨k₂, h2, hrec⟩ := bind_eq_ok h
      have hgp : (lookup t p.oAddr).isSome = true →
          ∀ e, lookup u p.oAddr = some e → e.bzzAddr.uAddr = p.uAddr :=
        fun hl e he => hg p (by simp) (by rw [connected_of_conns hc]; exact hl) u e ha he
      obtain ⟨r₀, po, hr₀, R⟩ :=
        swapPtr_pure hf.addrs_valid p.oAddr (registerCallback p now) (registerCallback_address p now)
      rw [ha, hr₀] at h1
      cases h1
      obtain ⟨u', rfl⟩ := SwapRoot.exists_some R (registerCallback_isSome p now _)
      obtain ⟨-, hd₂, -, -⟩ := addToCapabilityIndex_ok h2
      have hc₂ : k₂.defaultIndex.conns = some t := by simp [hd₂, hc]
      refine registerLoop_flags ⟨t, u', hc₂, by simp [hd₂], hf.setAddrs R
        (hf.registerCallback_agree p now hgp)⟩ ?_ hrec
      intro q hq hqc u₂ e hu₂ he
      simp only [hd₂, setAddrs_defaultIndex, Option.some.injEq] at hu₂
      subst hu₂
      rw [connected_of_conns hc₂] at hqc
      have hgq := hg q (by simp [hq]) (by rw [connected_of_conns hc]; exact hqc) u
      rw [R.lookup_eq u' rfl] at he
      split at he
      · rename_i hqp
        obtain ⟨ce, hce⟩ := Option.isSome_iff_exists.1 hqc
        obtain ⟨e₀, he₀, -⟩ := hf.addrs_of_live hce
        rw [hqp] at he₀ hqc
        have hu := hgp hqc e₀ he₀
        simp only [he₀, registerCallback, hu, ne_eq, not_true_eq_false, if_false,
          Option.some.injEq] at he
        subst he
        exact hgq _ ha (hqp ▸ he₀)
      · exact hgq e ha he

/-- Every allowed call keeps the flags. -/
theorem call_flags {k k' : Kademlia} {c : Call} (hk : FlagsInv k.defaultIndex)
    (hc : keepsLive k c) (h : k.call isSameAs c = .ok k') : FlagsInv k'.defaultIndex := by
  rcases c with ⟨s, cap⟩ | ⟨peers, now⟩ | ⟨p, now⟩ | ⟨p, now⟩
  · cases h
    rw [(RegisterCapabilityIndex_fst s cap).1]
    exact hk
  · obtain ⟨r, hr, h⟩ := bind_eq_ok h
    cases h
    exact registerLoop_flags isSameAs hk hc hr
  · obtain ⟨r, hr, h⟩ := bind_eq_ok h
    cases h
    exact On_flags isSameAs hk hr
  · exact Off_flags hk hc h

/-- Every run of calls that keep live addresses live keeps the flags of the default pots. -/
theorem flags_run {k k' : Kademlia} {calls : List Call} (h : Run isSameAs keepsLive k calls k')
    (hk : FlagsInv k.defaultIndex) : FlagsInv k'.defaultIndex := by
  induction h with
  | nil => exact hk
  | snoc _ hallowed hcall ih => exact call_flags isSameAs ih hallowed hcall

/-- A new table has both default pots, empty, so their flags hold. -/
theorem flags_new (addr : Key 256) (params : KadParams) (full light : Capability) :
    FlagsInv (NewKademlia addr params full light).defaultIndex :=
  ⟨empty, empty, rfl, rfl, ⟨.inl rfl, .inl rfl, by simp [lookup], by simp [lookup]⟩⟩

end Preservation

/-- The connection flags of the default index agree in every state reached from `NewKademlia` by
calls that keep live addresses live: `Off` only of a connected peer, and `Register` of a connected
overlay address only with the underlay address its addrs entry already has. -/
theorem connFlagsAgree_of_run (isSameAs : Capability → Capability → Bool) {addr : Key 256}
    {params : KadParams} {full light : Capability} {calls : List Call} {k : Kademlia}
    (h : Run isSameAs keepsLive (NewKademlia addr params full light) calls k) : ConnFlagsAgree k :=
  Flags.connFlagsAgree (flags_run isSameAs h (flags_new addr params full light))

/-! ## A connected peer registered anew -/

/-- The all-zero overlay address. -/
def zeroKey : Key 256 := ⟨List.replicate 256 false, List.length_replicate 256 false⟩

/-- An overlay address at proximity order 0 from `zeroKey`. -/
def farKey : Key 256 :=
  ⟨true :: List.replicate 255 false, congrArg (· + 1) (List.length_replicate 255 false)⟩

set_option maxRecDepth 10000 in
/-- A peer comes `On` and is then registered again with its own underlay address. -/
theorem connFlagsAgree_on_register_same :
    ∃ k, Run (fun a b => a == b) keepsLive (NewKademlia zeroKey NewKadParams ⟨0, []⟩ ⟨1, []⟩)
      [.on ⟨0, ⟨farKey, [1], []⟩⟩ 0, .register [⟨farKey, [1], []⟩] 1] k ∧ ConnFlagsAgree k := by
  let same : Capability → Capability → Bool := fun a b => a == b
  let k₀ := NewKademlia zeroKey NewKadParams ⟨0, []⟩ ⟨1, []⟩
  let k₁ := (k₀.call same (.on ⟨0, ⟨farKey, [1], []⟩⟩ 0)).toOption.getD k₀
  let k₂ := (k₁.call same (.register [⟨farKey, [1], []⟩] 1)).toOption.getD k₀
  have h₁ : k₀.call same (.on ⟨0, ⟨farKey, [1], []⟩⟩ 0) = .ok k₁ := rfl
  have h₂ : k₁.call same (.register [⟨farKey, [1], []⟩] 1) = .ok k₂ := rfl
  have hguard : keepsLive k₁ (.register [⟨farKey, [1], []⟩] 1) := by
    intro q hq _ u e hu he
    obtain rfl := List.mem_singleton.1 hq
    have hu₁ : (k₁.defaultIndex.addrs.map fun c => (lookup c farKey).map (·.bzzAddr.uAddr)) =
        some (some [1]) := by
      decide
    simpa [hu, he] using hu₁
  have hr := Run.snoc (Run.snoc (Run.nil k₀) (by trivial) h₁) hguard h₂
  exact ⟨k₂, hr, connFlagsAgree_of_run same hr⟩

set_option maxRecDepth 10000 in
/-- Runs that take `Off` only of a live peer do not keep the connection flags in agreement:
`Register` of a connected peer under another underlay address stores an entry with no connection. -/
theorem register_offlines_connected :
    ¬ ∀ (isSameAs : Capability → Capability → Bool) (addr : Key 256) (params : KadParams)
      (full light : Capability) (calls : List Call) (k : Kademlia),
      Run isSameAs offLive (NewKademlia addr params full light) calls k → ConnFlagsAgree k := by
  intro h
  let same : Capability → Capability → Bool := fun a b => a == b
  let k₀ := NewKademlia zeroKey NewKadParams ⟨0, []⟩ ⟨1, []⟩
  let k₁ := (k₀.call same (.on ⟨0, ⟨farKey, [1], []⟩⟩ 0)).toOption.getD k₀
  let k₂ := (k₁.call same (.register [⟨farKey, [2], []⟩] 1)).toOption.getD k₀
  have h₁ : k₀.call same (.on ⟨0, ⟨farKey, [1], []⟩⟩ 0) = .ok k₁ := rfl
  have h₂ : k₁.call same (.register [⟨farKey, [2], []⟩] 1) = .ok k₂ := rfl
  obtain ⟨conns, addrs, hc, ha, hag⟩ :=
    h same _ _ _ _ _ _ (.snoc (.snoc (.nil k₀) (by trivial) h₁) (by trivial) h₂)
  have hlive : (k₂.defaultIndex.conns.map fun c => (lookup c farKey).isSome) = some true := by
    decide
  have hoff : (k₂.defaultIndex.addrs.map fun c => (lookup c farKey).map (·.conn.isSome)) =
      some (some false) := by
    decide
  rw [hc, Option.map_some', Option.some.injEq] at hlive
  obtain ⟨e, he, hconn⟩ := ((hag farKey).1).1 hlive
  simp [ha, he, hconn] at hoff

end Swarm.Network
