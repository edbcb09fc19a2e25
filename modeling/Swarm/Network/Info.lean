import Swarm.Network.Flags
import Swarm.Pot.Bins
import Swarm.Pot.Union

/-!
# The info table

`kademliaInfo` of network/kademlia.go: the node's address, its depth, the sizes of the default
pots, and two tables of `MaxProxDisplay` rows, one for the connections and one for the known
peers. Each bin `EachBin` presents from the base writes the sorted hexadecimal addresses of its
values to the row of its order; a bin at order `MaxProxDisplay - 1` or deeper writes to the last
row, so each such bin replaces the row the one before it wrote. `MaxProxDisplay`, which the code
reads from `KadParams`, is an argument here.

Read `infoRows_shows` first: on a valid pot a table is what `Shows` says, row `i` below the last
holding the addresses at order `i` and the last row those of the deepest order when that order
reaches it. `Shows.sum_length_eq_iff` reads off what the table loses: it holds every value
exactly when at most one order from `MaxProxDisplay - 1` on is populated.
`kademliaInfo_of_run` carries both tables to every state of a run, and
`kademliaInfo_zero_of_run` gives the panic of a table with no rows.
-/

namespace Swarm.Network

open Pot

/-- `KademliaInfo`: what `kademliaInfo` reports. -/
structure KademliaInfo where
  self : String
  depth : Int
  totalConnections : Int
  totalKnown : Int
  connections : List (List String)
  known : List (List String)
deriving Repr, DecidableEq

/-- The row `kademliaInfo` writes a bin at order `po` to: `po`, or `maxProxDisplay - 1` from
`maxProxDisplay` on. -/
def displayRow (maxProxDisplay : Int) (po : Nat) : Int :=
  if (po : Int) ≥ maxProxDisplay then maxProxDisplay - 1 else po

/-- The row of a bin: the hexadecimal addresses of its values, sorted as `sort.Strings` sorts
them. -/
def binRow (bin : Bin Entry) : List String :=
  (bin.valIterator.run (fun e row => (row ++ [Kademlia.hexBits (address e).bits], true))
    []).1.mergeSort fun a b => decide (a ≤ b)

/-- The message of Go's panic on slice index `i` of a slice of length `length`. -/
def indexPanic (i : Int) (length : Nat) : String :=
  "runtime error: index out of range [" ++ toString i ++ "]" ++
    if i < 0 then "" else " with length " ++ toString length

/-- The bin consumer of `kademliaInfo`: it writes the bin's row at its display row; an index out
of the rows panics, which ends the walk. -/
def infoConsumer (maxProxDisplay : Int) (bin : Bin Entry) :
    Except String (List (List String)) → Except String (List (List String)) × Bool
  | .error e => (.error e, false)
  | .ok rows =>
    let po := displayRow maxProxDisplay bin.proximityOrder
    if 0 ≤ po ∧ po < rows.length then (.ok (rows.set po.toNat (binRow bin)), true)
    else (.error (indexPanic po rows.length), false)

/-- One table of `kademliaInfo`: `make([][]string, maxProxDisplay)`, then the rows of the bins
`t.EachBin(k.base, Pof, 0, ..., true)` presents. A nil pot presents no bin. -/
def infoRows (t : Option (Pot Entry)) (base : Key 256) (maxProxDisplay : Int) :
    Except String (List (List String)) :=
  if maxProxDisplay < 0 then .error "runtime error: makeslice: len out of range"
  else
    let rows := List.replicate maxProxDisplay.toNat []
    match t with
    | none => .ok rows
    | some t => EachBin t base.bits pof 0 (infoConsumer maxProxDisplay) true (.ok rows)

/-- `kademliaInfo`: both tables are made before either is filled, the connections first. -/
def Kademlia.kademliaInfo (k : Kademlia) (maxProxDisplay : Int) : Except String KademliaInfo := do
  let connections ← infoRows k.defaultIndex.conns k.base maxProxDisplay
  let known ← infoRows k.defaultIndex.addrs k.base maxProxDisplay
  pure ⟨Kademlia.hexBits k.base.bits,
    depthForPot k.defaultIndex.conns k.params.neighbourhoodSize k.base,
    potSize k.defaultIndex.conns, potSize k.defaultIndex.addrs, connections, known⟩

/-! ## What a table shows -/

/-- What a table of `kademliaInfo` holds for the values `S` of a pot: `maxProxDisplay` rows; row
`i` below the last holds the addresses of the values at order `i` from `base`; the last row holds
those of the deepest order when that order is at least the last row's. -/
structure Shows (base : Key 256) (maxProxDisplay : Nat) (S : List Entry)
    (rows : List (List String)) : Prop where
  length_eq : rows.length = maxProxDisplay
  low : ∀ i, i + 1 < maxProxDisplay → (rows.getD i []).Perm
    ((S.filter fun v => cpl (address v).bits base.bits = i).map
      fun v => Kademlia.hexBits (address v).bits)
  last : (rows.getD (maxProxDisplay - 1) []).Perm
    ((S.filter fun v => maxProxDisplay ≤ cpl (address v).bits base.bits + 1 ∧
      ∀ w ∈ S, cpl (address w).bits base.bits ≤ cpl (address v).bits base.bits).map
        fun v => Kademlia.hexBits (address v).bits)

/-- Values counted by order: those below `n + 1` are those below `n` and those at `n`. -/
theorem countP_lt_succ {α : Type} (f : α → Nat) (n : Nat) :
    ∀ S : List α, S.countP (fun v => f v < n + 1) =
      S.countP (fun v => f v < n) + S.countP (fun v => f v = n)
  | [] => rfl
  | v :: S => by
    simp only [List.countP_cons, countP_lt_succ f n S, decide_eq_true_eq]
    split_ifs <;> omega

/-- The counts of the values at each order below `n` add up to the count of the values below `n`. -/
theorem sum_countP_range {α : Type} (f : α → Nat) (S : List α) :
    ∀ n, ((List.range n).map fun i => S.countP fun v => f v = i).sum =
      S.countP fun v => f v < n
  | 0 => by simp
  | n + 1 => by
    rw [List.range_succ, List.map_append, List.sum_append, sum_countP_range f S n,
      countP_lt_succ]
    simp

/-- A list is the map of its `getD` over its positions. -/
theorem eq_map_range_getD {β : Type} (l : List β) (d : β) :
    l = (List.range l.length).map (l.getD · d) :=
  List.ext_getElem (by simp) fun i h _ => by simp [List.getElem?_eq_getElem h]

/-- A table of `kademliaInfo` holds every value of the pot exactly when at most one order from
the last row's on is populated: a deeper bin replaces the row of every shallower one there. -/
theorem Shows.sum_length_eq_iff {base : Key 256} {m : Nat} {S : List Entry}
    {rows : List (List String)} (h : Shows base m S rows) (hm : 0 < m) :
    (rows.map List.length).sum = S.length ↔
      ∀ v ∈ S, ∀ w ∈ S, m ≤ cpl (address v).bits base.bits + 1 →
        m ≤ cpl (address w).bits base.bits + 1 →
          cpl (address v).bits base.bits = cpl (address w).bits base.bits := by
  set ord := fun v : Entry => cpl (address v).bits base.bits
  obtain ⟨m, rfl⟩ : ∃ m', m = m' + 1 := ⟨m - 1, by omega⟩
  have hlow : ((List.range m).map fun i => (rows.getD i []).length).sum =
      S.countP fun v => ord v < m := by
    rw [← sum_countP_range ord S m]
    refine congrArg List.sum (List.map_congr_left fun i hi => ?_)
    rw [(h.low i (by simp at hi; omega)).length_eq, List.length_map,
      List.countP_eq_length_filter]
  have hdeep : (rows.getD m []).length =
      ((S.filter fun v => m + 1 ≤ ord v + 1).filter fun v => ∀ w ∈ S, ord w ≤ ord v).length := by
    have hl := h.last
    rw [Nat.add_sub_cancel] at hl
    rw [hl.length_eq, List.length_map, List.filter_filter]
    exact congrArg List.length (List.filter_congr fun v _ => by simp [ord, Bool.and_comm])
  have hhigh : S.countP (fun v => ¬ ord v < m) = (S.filter fun v => m + 1 ≤ ord v + 1).length := by
    rw [List.countP_eq_length_filter]
    exact congrArg List.length (List.filter_congr fun v _ => by simp only [decide_eq_decide]; omega)
  rw [eq_map_range_getD rows [], List.map_map, h.length_eq, List.range_succ, List.map_append,
    List.sum_append, List.length_eq_countP_add_countP (fun v => ord v < m) S]
  simp only [Function.comp_def, hlow, List.map_cons, List.map_nil, List.sum_cons, List.sum_nil,
    add_zero, hdeep, hhigh, Nat.add_right_inj, (List.filter_sublist _).length_eq,
    List.filter_eq_self, List.mem_filter, decide_eq_true_eq, and_imp]
  constructor
  · intro hd v hv w hw hvm hwm
    exact le_antisymm (hd w hw hwm v hv) (hd v hv hvm w hw)
  · intro hd v hv hvm w hw
    by_cases hwm : m + 1 ≤ ord w + 1
    · exact (hd v hv w hw hvm hwm).ge
    · omega

/-! ## The walk writes the rows -/

/-- The row a bin at order `po` is shown in is `po`, capped at the last row. -/
theorem displayRow_toNat {m : Nat} (hm : 0 < m) (po : Nat) :
    0 ≤ displayRow m po ∧ (displayRow m po).toNat = min po (m - 1) := by
  unfold displayRow
  split <;> omega

/-- On rows of length `m > 0` no bin is out of range: the walk writes each bin's row at the
smaller of its order and `m - 1`. -/
theorem feed_infoConsumer {m : Nat} (hm : 0 < m) :
    ∀ (L : List (Bin Entry)) (rows : List (List String)), rows.length = m →
      (feed (infoConsumer m) L (.ok rows)).1 =
        .ok (L.foldl (fun r B => r.set (min B.proximityOrder (m - 1)) (binRow B)) rows)
  | [], _, _ => rfl
  | B :: L, rows, hr => by
    obtain ⟨h0, hn⟩ := displayRow_toNat hm B.proximityOrder
    have hstep : infoConsumer m B (.ok rows) =
        (.ok (rows.set (min B.proximityOrder (m - 1)) (binRow B)), true) := by
      simp only [infoConsumer, hn, hr]
      rw [if_pos ⟨h0, by omega⟩]
    rw [feed_cons, hstep]
    exact feed_infoConsumer hm L _ (by rw [List.length_set, hr])

/-- Writes to positions keep the number of rows. -/
theorem length_foldl_set {β γ : Type} (f : β → Nat) (g : β → γ) :
    ∀ (L : List β) (rows : List γ),
      (L.foldl (fun r B => r.set (f B) (g B)) rows).length = rows.length
  | [], _ => rfl
  | B :: L, rows => by rw [List.foldl_cons, length_foldl_set f g L, List.length_set]

/-- After a run of writes in range, a position holds what the last write to it wrote. -/
theorem getElem?_foldl_set {β γ : Type} (f : β → Nat) (g : β → γ) (rows : List γ) (i : Nat)
    (L : List β) (hf : ∀ B ∈ L, f B < rows.length) :
    (L.foldl (fun r B => r.set (f B) (g B)) rows)[i]? =
      ((L.reverse.find? fun B => f B = i).map g).or rows[i]? := by
  induction L using List.reverseRecOn with
  | nil => simp
  | append_singleton L B ih =>
    rw [List.foldl_append, List.foldl_cons, List.foldl_nil, List.getElem?_set, length_foldl_set,
      ih fun B' h => hf B' (List.mem_append_left _ h), List.reverse_append, List.reverse_singleton,
      List.singleton_append, List.find?_cons]
    by_cases hB : f B = i
    · subst hB
      simp [hf B (by simp)]
    · simp [hB]

/-- Searching bins at ascending orders from the deepest for one at order `q` or deeper finds the
deepest bin, when it is that deep. -/
theorem find?_reverse_ge {L : List (Bin Entry)}
    (hs : (L.map Bin.proximityOrder).Pairwise (· < ·)) (q : Nat) :
    (L.reverse.find? fun B => q ≤ B.proximityOrder) =
      L.getLast?.filter fun B => q ≤ B.proximityOrder := by
  induction L using List.reverseRecOn with
  | nil => rfl
  | append_singleton L B _ =>
    simp only [List.map_append, List.map_cons, List.map_nil, List.pairwise_append,
      List.mem_singleton, forall_eq, List.mem_map] at hs
    rw [List.reverse_append, List.reverse_singleton, List.singleton_append, List.find?_cons,
      List.getLast?_concat]
    by_cases hq : q ≤ B.proximityOrder
    · simp [Option.filter, hq]
    · rw [List.find?_eq_none.2 fun B' hB' => ?_]
      · simp [Option.filter, hq]
      · have := hs.2.2 _ ⟨B', List.mem_reverse.1 hB', rfl⟩
        simp only [decide_eq_true_eq]
        omega

/-- The values of a grouping lie no deeper than its last bin. -/
theorem order_le_last {base : Key 256} {L : List (Bin Entry)} {S : List Entry}
    (hg : Groups base 0 L S) {B : Bin Entry} (hl : L.getLast? = some B) :
    ∀ w ∈ S, cpl (address w).bits base.bits ≤ B.proximityOrder := by
  intro w hw
  obtain ⟨B', hB', -, hw'⟩ := hg.exists_bin hw (Nat.zero_le _)
  obtain ⟨L', rfl⟩ := List.getLast?_eq_some_iff.1 hl
  have hs := hg.sorted
  simp only [List.map_append, List.map_cons, List.map_nil, List.pairwise_append,
    List.mem_singleton, forall_eq, List.mem_map] at hs
  rcases List.mem_append.1 hB' with h | h
  · exact hw' ▸ (hs.2.2 _ ⟨B', h, rfl⟩).le
  · exact hw' ▸ (List.mem_singleton.1 h ▸ le_refl _)

/-- A consumer that appends the text of each value to the row takes every value. -/
theorem feed_appendRow (h : Entry → String) :
    ∀ (vs : List Entry) (row : List String),
      feed (fun e row => (row ++ [h e], true)) vs row = (row ++ vs.map h, true)
  | [], row => by simp
  | v :: vs, row => by simp [feed_cons, feed_appendRow h vs]

/-- The row of a grouped bin holds the addresses of the values at its order. -/
theorem binRow_perm {base : Key 256} {L : List (Bin Entry)} {S : List Entry}
    (hg : Groups base 0 L S) {B : Bin Entry} (hB : B ∈ L) :
    (binRow B).Perm ((S.filter fun v => cpl (address v).bits base.bits = B.proximityOrder).map
      fun v => Kademlia.hexBits (address v).bits) := by
  have hvals : B.valIterator.vals.Perm
      (S.filter fun v => cpl (address v).bits base.bits = B.proximityOrder) := by
    rw [← binVals_filter_bin base hg.sorted hg.cpl_eq hB]
    refine (hg.perm.filter _).trans ?_
    rw [List.filter_filter]
    exact .of_eq (List.filter_congr fun v _ => by simp)
  rw [binRow, hg.run_eq B hB, feed_appendRow, List.nil_append]
  exact (List.mergeSort_perm _ _).trans (hvals.map _)

/-- A row below the last holds the one bin at its order, if any. -/
theorem lowRow_perm {base : Key 256} {L : List (Bin Entry)} {S : List Entry}
    (hg : Groups base 0 L S) {m i : Nat} (hi : i + 1 < m) :
    (((L.reverse.find? fun B => min B.proximityOrder (m - 1) = i).map binRow).getD []).Perm
      ((S.filter fun v => cpl (address v).bits base.bits = i).map
        fun v => Kademlia.hexBits (address v).bits) := by
  rw [show (fun B : Bin Entry => decide (min B.proximityOrder (m - 1) = i)) =
    fun B => decide (B.proximityOrder = i) from funext fun B => by
      simp only [decide_eq_decide]; omega]
  cases hf : L.reverse.find? fun B => decide (B.proximityOrder = i) with
  | some B =>
    have hpo : B.proximityOrder = i := by simpa using List.find?_some hf
    simpa [hpo] using binRow_perm hg (List.mem_reverse.1 (List.mem_of_find?_eq_some hf))
  | none =>
    rw [List.filter_eq_nil_iff.2 fun v hv hvi => ?_]
    · simp
    · obtain ⟨B, hB, -, hvB⟩ := hg.exists_bin hv (Nat.zero_le _)
      have := List.find?_eq_none.1 hf B (List.mem_reverse.2 hB)
      simp only [decide_eq_true_eq] at hvi this
      omega

/-- The last row holds the deepest bin, if it is that deep. -/
theorem lastRow_perm {base : Key 256} {L : List (Bin Entry)} {S : List Entry}
    (hg : Groups base 0 L S) {m : Nat} (hm : 0 < m) :
    (((L.reverse.find? fun B => min B.proximityOrder (m - 1) = m - 1).map binRow).getD []).Perm
      ((S.filter fun v => m ≤ cpl (address v).bits base.bits + 1 ∧
        ∀ w ∈ S, cpl (address w).bits base.bits ≤ cpl (address v).bits base.bits).map
          fun v => Kademlia.hexBits (address v).bits) := by
  rw [show (fun B : Bin Entry => decide (min B.proximityOrder (m - 1) = m - 1)) =
    fun B => decide (m - 1 ≤ B.proximityOrder) from funext fun B => by
      simp only [decide_eq_decide]; omega, find?_reverse_ge hg.sorted]
  cases hl : L.getLast? with
  | none =>
    have hnil : S = [] := by
      have := hg.perm
      rw [List.getLast?_eq_none_iff.1 hl] at this
      simpa [binVals] using this.symm
    simp [hnil]
  | some B =>
    have hle := order_le_last hg hl
    by_cases hq : m - 1 ≤ B.proximityOrder
    · simp only [Option.filter, hq, decide_True, if_true, Option.map_some', Option.getD_some]
      refine (binRow_perm hg (List.mem_of_getLast?_eq_some hl)).trans
        (.of_eq (congrArg _ (List.filter_congr fun v hv => ?_)))
      obtain ⟨u, hu, -, hub⟩ := hg.exists_val (List.mem_of_getLast?_eq_some hl)
      simp only [decide_eq_decide]
      constructor
      · intro h
        exact ⟨by omega, fun w hw => h ▸ hle w hw⟩
      · intro ⟨_, h⟩
        have := h u hu
        have := hle v hv
        omega
    · simp only [Option.filter, hq, decide_False, Option.map_none', Option.getD_none]
      rw [List.filter_eq_nil_iff.2 fun v hv hvm => ?_]
      · simp
      · have := hle v hv
        simp only [decide_eq_true_eq] at hvm
        omega

/-! ## The table of a valid pot -/

/-- With at least one row, a table of `kademliaInfo` on a valid pot does not panic and shows what
`Shows` says. -/
theorem infoRows_shows {t : Pot Entry} (ht : Valid t) (base : Key 256) {m : Nat} (hm : 0 < m) :
    ∃ rows, infoRows (some t) base m = .ok rows ∧ Shows base m (vals t) rows := by
  set L := binsOf base.bits pof 0 t
  have hg : Groups base 0 L (vals t) := groups_of_valid base 0 ht
  set rows := L.foldl (fun r B => r.set (min B.proximityOrder (m - 1)) (binRow B))
    (List.replicate m [])
  have hrun : infoRows (some t) base m = .ok rows := by
    simp only [infoRows, Int.not_lt.2 (Int.natCast_nonneg m), if_false, Int.toNat_natCast,
      EachBin, if_true, eachBin_eq]
    exact feed_infoConsumer hm L _ (List.length_replicate _ _)
  have hget : ∀ i, rows.getD i [] =
      ((L.reverse.find? fun B => min B.proximityOrder (m - 1) = i).map binRow).getD [] := by
    intro i
    rw [List.getD_eq_getElem?_getD, getElem?_foldl_set _ _ _ _ _ fun B _ => by simp; omega,
      List.getElem?_replicate]
    cases L.reverse.find? _ <;> split <;> rfl
  exact ⟨rows, hrun, (length_foldl_set _ _ _ _).trans (List.length_replicate _ _),
    fun i hi => hget i ▸ lowRow_perm hg hi, hget (m - 1) ▸ lastRow_perm hg hm⟩

/-- With no rows, a table of a valid pot panics at row `-1` on the first bin, and there is a bin
exactly when the pot holds a value. -/
theorem infoRows_zero {t : Pot Entry} (ht : Valid t) (base : Key 256) :
    infoRows (some t) base 0 =
      if vals t = [] then .ok [] else .error "runtime error: index out of range [-1]" := by
  have hg : Groups base 0 (binsOf base.bits pof 0 t) (vals t) := groups_of_valid base 0 ht
  simp only [infoRows, Int.lt_irrefl, if_false, Int.toNat_zero, List.replicate_zero, EachBin,
    if_true, eachBin_eq]
  rcases hL : binsOf base.bits pof 0 t with _ | ⟨B, L⟩
  · rw [hL] at hg
    have hnil : vals t = [] := by simpa [binVals] using hg.perm.symm
    simp [hnil]
  · have hne : vals t ≠ [] := fun hnil => by
      have hB := hg.ne_nil B (by simp [hL])
      have := hg.perm
      rw [hnil, hL] at this
      simp [binVals, hB] at this
    simp only [hne, if_false, feed_cons, infoConsumer, displayRow,
      show (B.proximityOrder : Int) ≥ 0 from Int.natCast_nonneg _, if_true]
    rfl

/-- On valid default pots and at least one row, `kademliaInfo` reports the base, the depth of the
conns, the numbers of connections and of known peers, and two tables that show the conns and the
addrs as `Shows` says. -/
theorem Kademlia.kademliaInfo_eq {k : Kademlia} {c a : Pot Entry}
    (hc : k.defaultIndex.conns = some c) (ha : k.defaultIndex.addrs = some a) (hcv : Valid c)
    (hav : Valid a) {m : Nat} (hm : 0 < m) :
    ∃ connections known, k.kademliaInfo m = .ok ⟨Kademlia.hexBits k.base.bits,
        depthForPot (some c) k.params.neighbourhoodSize k.base, (vals c).length,
        (vals a).length, connections, known⟩ ∧
      Shows k.base m (vals c) connections ∧ Shows k.base m (vals a) known := by
  obtain ⟨connections, hrc, hsc⟩ := infoRows_shows hcv k.base hm
  obtain ⟨known, hra, hsa⟩ := infoRows_shows hav k.base hm
  refine ⟨connections, known, ?_, hsc, hsa⟩
  simp only [Kademlia.kademliaInfo, hc, ha, hrc, hra, potSize, hcv.size_eq_length,
    hav.size_eq_length]
  rfl

/-- The run of the examples below: a peer at order 0 connects to a new table. -/
theorem run_on_far : Run (fun a b => a == b) keepsLive
    (NewKademlia zeroKey NewKadParams ⟨0, [true]⟩ ⟨1, []⟩) [.on ⟨0, ⟨farKey, [1], [⟨0, [true]⟩]⟩⟩ 0]
    (((NewKademlia zeroKey NewKadParams ⟨0, [true]⟩ ⟨1, []⟩).call (fun a b => a == b)
      (.on ⟨0, ⟨farKey, [1], [⟨0, [true]⟩]⟩⟩ 0)).toOption.getD
        (NewKademlia zeroKey NewKadParams ⟨0, [true]⟩ ⟨1, []⟩)) :=
  Run.snoc (Run.nil _) trivial rfl

section Run

variable (isSameAs : Capability → Capability → Bool) {addr : Key 256} {params : KadParams}
  {full light : Capability} {calls : List Call} {k : Kademlia}

/-- In every state of a run that keeps the flags, `kademliaInfo` with at least one row reports the
base, the depth of the conns, the numbers of connections and of known peers, and two tables that
show the conns and the addrs as `Shows` says. -/
theorem kademliaInfo_of_run
    (h : Run isSameAs keepsLive (NewKademlia addr params full light) calls k) {m : Nat}
    (hm : 0 < m) :
    ∃ c a connections known, k.defaultIndex.conns = some c ∧ k.defaultIndex.addrs = some a ∧
      k.kademliaInfo m = .ok ⟨Kademlia.hexBits k.base.bits,
        depthForPot (some c) k.params.neighbourhoodSize k.base, (vals c).length,
        (vals a).length, connections, known⟩ ∧
      Shows k.base m (vals c) connections ∧ Shows k.base m (vals a) known := by
  obtain ⟨c, a, hc, ha, hf⟩ := flags_run isSameAs h (flags_new addr params full light)
  exact ⟨c, a, Kademlia.kademliaInfo_eq hc ha hf.conns_valid hf.addrs_valid hm |>.imp
    fun _ ⟨known, hk⟩ => ⟨known, hc, ha, hk⟩⟩

/-- The info table after one peer connects to a new table, with the default sixteen rows. -/
theorem kademliaInfo_of_run_on :
    ∃ k, Run (fun a b => a == b) keepsLive (NewKademlia zeroKey NewKadParams ⟨0, [true]⟩ ⟨1, []⟩)
        [.on ⟨0, ⟨farKey, [1], [⟨0, [true]⟩]⟩⟩ 0] k ∧
      ∃ c a connections known, k.defaultIndex.conns = some c ∧ k.defaultIndex.addrs = some a ∧
        k.kademliaInfo 16 = .ok ⟨Kademlia.hexBits k.base.bits,
          depthForPot (some c) k.params.neighbourhoodSize k.base, (vals c).length,
          (vals a).length, connections, known⟩ ∧
        Shows k.base 16 (vals c) connections ∧ Shows k.base 16 (vals a) known :=
  ⟨_, run_on_far, kademliaInfo_of_run _ run_on_far (by decide)⟩

/-- In every state of a run that keeps the flags, the connections table of `kademliaInfo` lists
as many addresses as there are connections exactly when at most one order from the last row's
on holds connections. -/
theorem kademliaInfo_lists_all_of_run
    (h : Run isSameAs keepsLive (NewKademlia addr params full light) calls k) {m : Nat}
    (hm : 0 < m) :
    ∃ c ki, k.defaultIndex.conns = some c ∧ k.kademliaInfo m = .ok ki ∧
      ((((ki.connections.map List.length).sum : Nat) : Int) = ki.totalConnections ↔
        ∀ v ∈ vals c, ∀ w ∈ vals c, m ≤ cpl (address v).bits k.base.bits + 1 →
          m ≤ cpl (address w).bits k.base.bits + 1 →
            cpl (address v).bits k.base.bits = cpl (address w).bits k.base.bits) := by
  obtain ⟨c, a, hc, ha, hf⟩ := flags_run isSameAs h (flags_new addr params full light)
  obtain ⟨connections, known, hk, hsc, -⟩ :=
    Kademlia.kademliaInfo_eq hc ha hf.conns_valid hf.addrs_valid hm
  exact ⟨c, _, hc, hk, Int.ofNat_inj.trans (hsc.sum_length_eq_iff hm)⟩

/-- The count of the connections table after one peer connects to a new table, with one row. -/
theorem kademliaInfo_lists_all_of_run_on :
    ∃ k, Run (fun a b => a == b) keepsLive (NewKademlia zeroKey NewKadParams ⟨0, [true]⟩ ⟨1, []⟩)
        [.on ⟨0, ⟨farKey, [1], [⟨0, [true]⟩]⟩⟩ 0] k ∧
      ∃ c ki, k.defaultIndex.conns = some c ∧ k.kademliaInfo 1 = .ok ki ∧
        ((((ki.connections.map List.length).sum : Nat) : Int) = ki.totalConnections ↔
          ∀ v ∈ vals c, ∀ w ∈ vals c, 1 ≤ cpl (address v).bits k.base.bits + 1 →
            1 ≤ cpl (address w).bits k.base.bits + 1 →
              cpl (address v).bits k.base.bits = cpl (address w).bits k.base.bits) :=
  ⟨_, run_on_far, kademliaInfo_lists_all_of_run _ run_on_far (by decide)⟩

/-- In every state of a run that keeps the flags, `kademliaInfo` with no rows panics exactly when
the node knows a peer, and otherwise reports two empty tables. -/
theorem kademliaInfo_zero_of_run
    (h : Run isSameAs keepsLive (NewKademlia addr params full light) calls k) :
    ∃ c a, k.defaultIndex.conns = some c ∧ k.defaultIndex.addrs = some a ∧
      k.kademliaInfo 0 = if vals a = [] then
        .ok ⟨Kademlia.hexBits k.base.bits, depthForPot (some c) k.params.neighbourhoodSize k.base,
          0, 0, [], []⟩
      else .error "runtime error: index out of range [-1]" := by
  obtain ⟨c, a, hc, ha, hf⟩ := flags_run isSameAs h (flags_new addr params full light)
  refine ⟨c, a, hc, ha, ?_⟩
  simp only [Kademlia.kademliaInfo, hc, ha, infoRows_zero hf.conns_valid,
    infoRows_zero hf.addrs_valid, potSize, hf.conns_valid.size_eq_length,
    hf.addrs_valid.size_eq_length]
  by_cases hna : vals a = []
  · simp [hna, hf.conns_nil hna]
    rfl
  · by_cases hnc : vals c = [] <;> simp [hna, hnc] <;> rfl

/-- With no rows, `kademliaInfo` after one peer connects to a new table. -/
theorem kademliaInfo_zero_of_run_on :
    ∃ k, Run (fun a b => a == b) keepsLive (NewKademlia zeroKey NewKadParams ⟨0, [true]⟩ ⟨1, []⟩)
        [.on ⟨0, ⟨farKey, [1], [⟨0, [true]⟩]⟩⟩ 0] k ∧
      ∃ c a, k.defaultIndex.conns = some c ∧ k.defaultIndex.addrs = some a ∧
        k.kademliaInfo 0 = if vals a = [] then
          .ok ⟨Kademlia.hexBits k.base.bits,
            depthForPot (some c) k.params.neighbourhoodSize k.base, 0, 0, [], []⟩
        else .error "runtime error: index out of range [-1]" :=
  ⟨_, run_on_far, kademliaInfo_zero_of_run _ run_on_far⟩

end Run

end Swarm.Network
