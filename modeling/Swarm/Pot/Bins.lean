import Swarm.Pot.Each

/-!
# What the presented bins hold

With `DefaultPof(n)` and a key `k` as the pivot, the bins `eachBin` presents on a valid pot group
its values by their proximity order to `k`: each bin holds values at its own order only and
counts them, the orders strictly ascend, and together the bins hold every value whose order is
at least `minPO` (`binsOf_groups`). `neighboursOf_sound` shows that `eachNeighbour` presents
stored values with their orders to the pivot.
-/

namespace Swarm.Pot

variable {α : Type} {n : Nat} [BytesAddress α n]

/-- The values a `ValIterator` yields when its pots are well formed. -/
def ValIterator.vals : ValIterator α → List α
  | .each t => Pot.vals t
  | .pin v => v.toList
  | .eachFrom t po => valsOf (t.bins.drop (getPos t.bins po).2) ++ t.pin.toList

/-- The values of the bins of a list, bin by bin. -/
def binVals (L : List (Bin α)) : List α := L.flatMap fun B => B.valIterator.vals

variable (k : Key n) (minPO : Nat)

/-- The bins `L` group the values `S` by their order to `k`, those below `minPO` left out: each
bin runs over its values, is not empty, counts its values and holds values at its own order only;
the orders strictly ascend; and together the bins hold the values of `S` of order at least
`minPO`. -/
structure Groups (L : List (Bin α)) (S : List α) : Prop where
  run_eq : ∀ B ∈ L, ∀ {σ : Type} (consume : α → σ → σ × Bool) (s : σ),
    B.valIterator.run consume s = feed consume B.valIterator.vals s
  ne_nil : ∀ B ∈ L, B.valIterator.vals ≠ []
  size_eq : ∀ B ∈ L, B.size = B.valIterator.vals.length
  cpl_eq : ∀ B ∈ L, ∀ v ∈ B.valIterator.vals, cpl (address v).bits k.bits = B.proximityOrder
  sorted : (L.map Bin.proximityOrder).Pairwise (· < ·)
  perm : (binVals L).Perm (S.filter fun v => minPO ≤ cpl (address v).bits k.bits)

/-- The number of values of `S` at order `q` from `k`. -/
def countAt (S : List α) (q : Nat) : Nat :=
  (S.filter fun v => cpl (address v).bits k.bits = q).length

/-- In bins at strictly ascending orders, each holding values at its own order only, the values
at the order of a bin are that bin's. -/
theorem binVals_filter_bin : ∀ {L : List (Bin α)}, (L.map Bin.proximityOrder).Pairwise (· < ·) →
    (∀ B ∈ L, ∀ v ∈ B.valIterator.vals, cpl (address v).bits k.bits = B.proximityOrder) →
    ∀ {B : Bin α}, B ∈ L →
      (binVals L).filter (fun v => cpl (address v).bits k.bits = B.proximityOrder) =
        B.valIterator.vals
  | [], _, _, _, hB => by cases hB
  | B' :: L, hs, hc, B, hB => by
    simp only [List.map_cons, List.pairwise_cons, List.forall_mem_map] at hs
    simp only [binVals, List.flatMap_cons, List.filter_append]
    rcases List.mem_cons.1 hB with rfl | hB
    · rw [List.filter_eq_self.2 (fun v hv => by simp [hc _ (.head _) v hv]),
        List.filter_eq_nil_iff.2 fun v hv => ?_, List.append_nil]
      obtain ⟨B'', hB'', hv''⟩ := List.mem_flatMap.1 hv
      simp [hc B'' (.tail _ hB'') v hv'', (hs.1 B'' hB'').ne']
    · rw [List.filter_eq_nil_iff.2 fun v hv => ?_, List.nil_append]
      · exact binVals_filter_bin hs.2 (fun B'' h => hc B'' (.tail _ h)) hB
      · simp [hc B' (.head _) v hv, (hs.1 B hB).ne]

namespace Groups

variable {k minPO}

/-- A value of a bin of a grouping is a value of the list, at `minPO` or deeper from the pivot. -/
theorem mem_of_mem {L : List (Bin α)} {S : List α} (h : Groups k minPO L S) {B : Bin α}
    (hB : B ∈ L) {v : α} (hv : v ∈ B.valIterator.vals) :
    v ∈ S ∧ minPO ≤ cpl (address v).bits k.bits := by
  have : v ∈ binVals L := List.mem_flatMap.2 ⟨B, hB, hv⟩
  simpa using h.perm.subset this

/-- Every bin of a grouping lies at the order of a value it groups. -/
theorem exists_val {L : List (Bin α)} {S : List α} (h : Groups k minPO L S) {B : Bin α}
    (hB : B ∈ L) : ∃ v ∈ S, minPO ≤ cpl (address v).bits k.bits ∧
      cpl (address v).bits k.bits = B.proximityOrder := by
  obtain ⟨v, hv⟩ := List.exists_mem_of_ne_nil _ (h.ne_nil B hB)
  exact ⟨v, (h.mem_of_mem hB hv).1, (h.mem_of_mem hB hv).2, h.cpl_eq B hB v hv⟩

/-- Every grouped value of order at least `minPO` lies in a bin at its order. -/
theorem exists_bin {L : List (Bin α)} {S : List α} (h : Groups k minPO L S) {v : α} (hv : v ∈ S)
    (hq : minPO ≤ cpl (address v).bits k.bits) :
    ∃ B ∈ L, v ∈ B.valIterator.vals ∧ cpl (address v).bits k.bits = B.proximityOrder := by
  obtain ⟨B, hB, hvB⟩ :=
    List.mem_flatMap.1 (h.perm.symm.subset (List.mem_filter.2 ⟨hv, by simpa using hq⟩))
  exact ⟨B, hB, hvB, h.cpl_eq B hB v hvB⟩

/-- A grouping of a list groups every permutation of it. -/
theorem of_perm {L : List (Bin α)} {S S' : List α} (h : Groups k minPO L S) (hS : S.Perm S') :
    Groups k minPO L S' :=
  { h with perm := h.perm.trans (hS.filter _) }

/-- No bins group a list whose values all lie below `minPO`. -/
theorem nil {S : List α} (hS : ∀ v ∈ S, cpl (address v).bits k.bits < minPO) :
    Groups k minPO [] S where
  run_eq := fun B hB => absurd hB (List.not_mem_nil B)
  ne_nil := by simp
  size_eq := by simp
  cpl_eq := by simp
  sorted := by simp
  perm := by
    rw [List.filter_eq_nil_iff.2 (fun v hv => by simpa using hS v hv)]
    simp [binVals]

/-- Two groupings, the values of the first below those of the second, group the values of both
in turn. -/
theorem append {L₁ L₂ : List (Bin α)} {S₁ S₂ : List α} (h₁ : Groups k minPO L₁ S₁)
    (h₂ : Groups k minPO L₂ S₂)
    (hlt : ∀ v ∈ S₁, ∀ w ∈ S₂, cpl (address v).bits k.bits < cpl (address w).bits k.bits) :
    Groups k minPO (L₁ ++ L₂) (S₁ ++ S₂) where
  run_eq := by
    simp only [List.mem_append]
    rintro B (hB | hB)
    exacts [h₁.run_eq B hB, h₂.run_eq B hB]
  ne_nil := by
    simp only [List.mem_append]
    rintro B (hB | hB)
    exacts [h₁.ne_nil B hB, h₂.ne_nil B hB]
  size_eq := by
    simp only [List.mem_append]
    rintro B (hB | hB)
    exacts [h₁.size_eq B hB, h₂.size_eq B hB]
  cpl_eq := by
    simp only [List.mem_append]
    rintro B (hB | hB)
    exacts [h₁.cpl_eq B hB, h₂.cpl_eq B hB]
  sorted := by
    rw [List.map_append, List.pairwise_append]
    refine ⟨h₁.sorted, h₂.sorted, ?_⟩
    simp only [List.mem_map]
    rintro _ ⟨B₁, hB₁, rfl⟩ _ ⟨B₂, hB₂, rfl⟩
    obtain ⟨v, hv, -, hv'⟩ := h₁.exists_val hB₁
    obtain ⟨w, hw, -, hw'⟩ := h₂.exists_val hB₂
    exact hv' ▸ hw' ▸ hlt v hv w hw
  perm := by
    simp only [binVals, List.flatMap_append, List.filter_append]
    exact h₁.perm.append h₂.perm

/-- One bin whose values all lie at its order, presented when its order is not below `minPO`. -/
theorem single {B : Bin α} (hrun : ∀ {σ : Type} (consume : α → σ → σ × Bool) (s : σ),
      B.valIterator.run consume s = feed consume B.valIterator.vals s)
    (hne : B.valIterator.vals ≠ []) (hsize : B.size = B.valIterator.vals.length)
    (hcpl : ∀ v ∈ B.valIterator.vals, cpl (address v).bits k.bits = B.proximityOrder) :
    Groups k minPO (if minPO ≤ B.proximityOrder then [B] else []) B.valIterator.vals := by
  split
  · refine ⟨fun B' hB' => List.mem_singleton.1 hB' ▸ hrun, by simpa using hne,
      by simpa using hsize, by simpa using hcpl, by simp, ?_⟩
    rw [List.filter_eq_self.2 (fun v hv => by simpa [hcpl v hv])]
    simp [binVals]
  · exact nil (fun v hv => by rw [hcpl v hv]; omega)

/-- A bin holds all the grouped values at its order. -/
theorem countAt_bin {L : List (Bin α)} {S : List α} (h : Groups k minPO L S) {B : Bin α}
    (hB : B ∈ L) : countAt k S B.proximityOrder = B.valIterator.vals.length := by
  have hq : minPO ≤ B.proximityOrder := by
    obtain ⟨v, -, hv, hv'⟩ := h.exists_val hB
    omega
  rw [countAt, ← binVals_filter_bin k h.sorted h.cpl_eq hB, (h.perm.filter _).length_eq,
    List.filter_filter]
  congr 1
  refine List.filter_congr fun v _ => ?_
  by_cases hv : cpl (address v).bits k.bits = B.proximityOrder <;> simp [hv, hq]

/-- No grouped value lies at an order, not below `minPO`, where there is no bin. -/
theorem countAt_gap {L : List (Bin α)} {S : List α} (h : Groups k minPO L S) {q : Nat}
    (hq : minPO ≤ q) (hgap : ∀ B ∈ L, B.proximityOrder ≠ q) : countAt k S q = 0 := by
  rw [countAt, List.length_eq_zero, List.filter_eq_nil_iff]
  intro v hv hvq
  rw [decide_eq_true_iff] at hvq
  have : v ∈ binVals L := h.perm.symm.subset (List.mem_filter.2 ⟨hv, by simp [hvq, hq]⟩)
  obtain ⟨B, hB, hvB⟩ := List.mem_flatMap.1 this
  exact hgap B hB (by rw [← h.cpl_eq B hB v hvB, hvq])

end Groups

/-! ## The bins of a valid pot -/

/-- `getPos` returns the position after the bins below the order. -/
theorem getPos_snd {pre post : List (Pot α)} {q : Nat} (hpre : ∀ c ∈ pre, c.po < q)
    (hpost : ∀ c ∈ post.head?, q ≤ c.po) : (getPos (pre ++ post) q).2 = pre.length := by
  rcases post with _ | ⟨c, post⟩
  · have := getPos_gap hpre (show ∀ d ∈ ([] : List (Pot α)).head?, q < d.po by simp)
    simp_all
  · rcases (hpost c rfl).lt_or_eq with hlt | heq
    · simp [getPos_gap hpre (show ∀ d ∈ (c :: post).head?, q < d.po by simpa using hlt)]
    · rw [getPos_found hpre heq.symm]

/-- A value that leaves the pin below the pivot's order lies at that same order from the
pivot. -/
theorem cpl_of_lt {x v : Bits} {p : Nat} (hv : cpl x v = p) (hp : p < cpl x k.bits) :
    cpl v k.bits = p := by
  have := cpl_eq_of_lt (a := v) (b := x) (c := k.bits) (by rwa [cpl_comm, hv])
  rwa [cpl_comm v x, hv] at this

/-- A value that leaves the pin above the pivot's order lies at the pivot's order from it. -/
theorem cpl_of_gt {x v : Bits} (hv : cpl x k.bits < cpl x v) : cpl v k.bits = cpl x k.bits := by
  have := cpl_eq_of_lt (a := k.bits) (b := x) (c := v) (by rwa [cpl_comm k.bits x])
  rw [cpl_comm, this, cpl_comm]

/-- Ascending bins below the pivot's order, each at the order of its values, group their values. -/
theorem lowBins_groups {pre : List (Pot α)} (hwf : ∀ c ∈ pre, Wf c)
    (hcpl : ∀ c ∈ pre, ∀ v ∈ vals c, cpl (address v).bits k.bits = c.po)
    (hs : (pre.map Pot.po).Pairwise (· < ·)) :
    Groups k minPO (lowBins minPO pre) (valsOf pre) := by
  induction pre with
  | nil => exact Groups.nil (by simp)
  | cons c pre ih =>
    simp only [List.mem_cons, forall_eq_or_imp, List.map_cons, List.pairwise_cons,
      List.mem_map] at hwf hcpl hs
    obtain ⟨x, hx⟩ := hwf.1.pin_isSome
    have hc : Groups k minPO (if minPO ≤ c.po then [⟨c.po, c.size, .each c⟩] else [])
        (ValIterator.each c).vals := Groups.single (B := ⟨c.po, c.size, .each c⟩)
      (fun consume s => each_eq hwf.1 consume s) (List.ne_nil_of_mem (pin_mem_vals hx))
      hwf.1.size_eq_length hcpl.1
    have hif : (if c.po < minPO then [] else [(⟨c.po, c.size, .each c⟩ : Bin α)]) =
        if minPO ≤ c.po then [⟨c.po, c.size, .each c⟩] else [] := by
      split_ifs <;> first | rfl | omega
    rw [lowBins_cons, valsOf_cons, hif]
    refine hc.append (ih hwf.2 hcpl.2 hs.2) fun v hv w hw => ?_
    obtain ⟨d, hd, hwd⟩ := mem_valsOf.1 hw
    rw [hcpl.1 v hv, hcpl.2 d hd w hwd]
    exact hs.1 _ ⟨d, hd, rfl⟩

/-- The virtual bin of a node at the pivot's order: an iterator over the values of the bins `hi`,
all at the pin's order from the pivot, then the pin. -/
theorem virtual_groups {x : α} (it : ValIterator α) (hi : List (Pot α)) (size : Int)
    (hit : it.vals = valsOf hi ++ [x])
    (hrun : ∀ {σ : Type} (consume : α → σ → σ × Bool) (s : σ),
      it.run consume s = feed consume it.vals s)
    (hwf : ∀ c ∈ hi, Wf c)
    (hcpl : ∀ c ∈ hi, ∀ v ∈ vals c, cpl (address v).bits k.bits = cpl (address x).bits k.bits)
    (hsize : size = 1 + sizes hi) :
    Groups k minPO (if minPO ≤ cpl (address x).bits k.bits then
      [⟨cpl (address x).bits k.bits, size, it⟩] else []) (valsOf hi ++ [x]) := by
  have : Groups k minPO (if minPO ≤ cpl (address x).bits k.bits then
      [⟨cpl (address x).bits k.bits, size, it⟩] else []) it.vals :=
    Groups.single (B := ⟨cpl (address x).bits k.bits, size, it⟩) hrun (by simp [hit]) (by simp [hit, hsize, Wf.sizes_eq_length hwf]; omega) (by
      simp only [hit, List.mem_append, mem_valsOf, List.mem_singleton]
      rintro v (⟨c, hc, hv⟩ | rfl)
      exacts [hcpl c hc v hv, rfl])
  rwa [hit] at this

/-- With `DefaultPof(n)` and a key as the pivot, the bins `eachBin` presents on a well-formed
node group its values by their order to the pivot, when the node's order does not exceed its
pin's and its keys are distinct. -/
theorem binsOf_groups {t : Pot α} (ht : Wf t)
    (hfloor : ∀ x, t.pin = some x → t.po ≤ cpl (address x).bits k.bits)
    (hnd : ((vals t).map address).Nodup) :
    Groups k minPO (binsOf k.bits (defaultPof n) minPO t) (vals t) := by
  induction ht with
  | @node x bins size po size_eq sorted bins_wf bins_po bins_cpl ih =>
  have hwf : Wf (⟨some x, bins, size, po⟩ : Pot α) := .node size_eq sorted bins_wf bins_po bins_cpl
  have hv : (defaultPof n (toBytes (some x)) k.bits po).1 = cpl (address x).bits k.bits := by
    simp [toBytes, Key.defaultPof_key (hfloor x rfl)]
  simp only [binsOf, hwf.size_pos.ne', if_false, hv]
  have hlow : ∀ c ∈ bins, c.po < cpl (address x).bits k.bits →
      ∀ v ∈ vals c, cpl (address v).bits k.bits = c.po :=
    fun c hc hlt v hv => cpl_of_lt k (bins_cpl c hc v hv) hlt
  have hhigh : ∀ c ∈ bins, cpl (address x).bits k.bits < c.po →
      ∀ v ∈ vals c, cpl (address v).bits k.bits = cpl (address x).bits k.bits :=
    fun c hc hlt v hv => cpl_of_gt k (by rw [bins_cpl c hc v hv]; exact hlt)
  have hsorted : ∀ {pre post : List (Pot α)}, bins = pre ++ post →
      (pre.map Pot.po).Pairwise (· < ·) ∧ (post.map Pot.po).Pairwise (· < ·) := by
    rintro pre post rfl
    rw [List.map_append, List.pairwise_append] at sorted
    exact ⟨sorted.1, sorted.2.1⟩
  rcases bins_split bins (cpl (address x).bits k.bits) with
    ⟨pre, b, post, hbins, hpre, hb⟩ | ⟨pre, post, hbins, hpre, hpost⟩
  · subst hbins
    have hspre := (@hsorted pre (b :: post) rfl).1
    have hgt : ∀ c ∈ post, cpl (address x).bits k.bits < c.po :=
      fun c hc => hb ▸ po_lt_of_sorted_split sorted hc
    have G1 := lowBins_groups k minPO (fun c hc => bins_wf c (by simp [hc]))
      (fun c hc => hlow c (by simp [hc]) (hpre c hc)) hspre
    have hidx : (getPos (pre ++ b :: post) (cpl (address x).bits k.bits + 1)).2 = pre.length + 1 := by
      have := getPos_snd (q := cpl (address x).bits k.bits + 1)
        (show ∀ c ∈ pre ++ [b], c.po < cpl (address x).bits k.bits + 1 by
          simp only [List.mem_append, List.mem_singleton]
          rintro c (hc | rfl) <;> [have := hpre c hc; skip] <;> omega)
        (show ∀ c ∈ post.head?, cpl (address x).bits k.bits + 1 ≤ c.po from
          fun c hc => hgt c (List.mem_of_mem_head? hc))
      simpa using this
    have G2 := virtual_groups k minPO (.eachFrom ⟨some x, pre ++ b :: post, size, po⟩
        (cpl (address x).bits k.bits + 1)) post (size - (0 + sizes pre + b.size))
      (by simp [ValIterator.vals, hidx]) (fun consume s => eachFrom_eq hwf consume _ s)
      (fun c hc => bins_wf c (by simp [hc])) (fun c hc => hhigh c (by simp [hc]) (hgt c hc))
      (by rw [size_eq]; simp; omega)
    have G3 := ih b (by simp) (fun y hy => Wf.bin_floor hwf (by simp) hb hy) (nodup_bin hnd)
    rw [binsAt_low _ _ _ hpre]
    simp only [binsAt, hb, lt_irrefl, if_false, if_true]
    have hS1 : ∀ v ∈ valsOf pre, cpl (address v).bits k.bits < cpl (address x).bits k.bits := by
      intro v hv
      obtain ⟨c, hc, hvc⟩ := mem_valsOf.1 hv
      rw [hlow c (by simp [hc]) (hpre c hc) v hvc]
      exact hpre c hc
    have hS2 : ∀ v ∈ valsOf post ++ [x], cpl (address v).bits k.bits = cpl (address x).bits k.bits := by
      simp only [List.mem_append, mem_valsOf, List.mem_singleton]
      rintro v (⟨c, hc, hvc⟩ | rfl)
      exacts [hhigh c (by simp [hc]) (hgt c hc) v hvc, rfl]
    have hS3 : ∀ w ∈ vals b, cpl (address x).bits k.bits < cpl (address w).bits k.bits := by
      intro w hw
      have hxw := bins_cpl b (by simp) w hw
      have hne := Wf.address_ne_pin rfl hnd (mem_valsOf.2 ⟨b, by simp, hw⟩)
      exact Key.lt_cpl (hxw.trans hb) rfl (hb ▸ hxw ▸ Key.cpl_lt (Ne.symm hne))
    refine (G1.append (G2.append G3 fun v hv w hw => (hS2 v hv).symm ▸ hS3 w hw) ?_).of_perm ?_
    · intro v hv w hw
      rcases List.mem_append.1 hw with hw | hw
      · exact (hS2 w hw).symm ▸ hS1 v hv
      · exact (hS1 v hv).trans (hS3 w hw)
    · simpa using (@List.perm_append_comm _ (valsOf post ++ [x]) (vals b)).append_left (valsOf pre)
  · subst hbins
    have hgt : ∀ c ∈ post, cpl (address x).bits k.bits < c.po :=
      po_lt_of_sorted_head (@hsorted pre post rfl).2 hpost
    have G1 := lowBins_groups k minPO (fun c hc => bins_wf c (by simp [hc]))
      (fun c hc => hlow c (by simp [hc]) (hpre c hc)) (@hsorted pre post rfl).1
    have hS1 : ∀ v ∈ valsOf pre, cpl (address v).bits k.bits < cpl (address x).bits k.bits := by
      intro v hv
      obtain ⟨c, hc, hvc⟩ := mem_valsOf.1 hv
      rw [hlow c (by simp [hc]) (hpre c hc) v hvc]
      exact hpre c hc
    have hS2 : ∀ v ∈ valsOf post ++ [x], cpl (address v).bits k.bits = cpl (address x).bits k.bits := by
      simp only [List.mem_append, mem_valsOf, List.mem_singleton]
      rintro v (⟨c, hc, hvc⟩ | rfl)
      exacts [hhigh c (by simp [hc]) (hgt c hc) v hvc, rfl]
    rw [binsAt_low _ _ _ hpre]
    have G2 : Groups k minPO (binsAt k.bits (defaultPof n) minPO ⟨some x, pre ++ post, size, po⟩
        (cpl (address x).bits k.bits) (0 + sizes pre) post) (valsOf post ++ [x]) := by
      rcases post with _ | ⟨c, post⟩
      · simpa [binsAt] using virtual_groups k minPO (.pin (some x)) [] 1 (by simp [ValIterator.vals])
          (fun consume s => (feed_singleton consume x s).symm) (by simp) (by simp) (by simp)
      · have hc := hgt c (by simp)
        have hidx : (getPos (pre ++ c :: post) (cpl (address x).bits k.bits)).2 = pre.length :=
          getPos_snd hpre (fun d hd => (hpost d hd).le)
        simpa [binsAt, hc, hc.ne', Nat.not_lt.2 hc.le] using virtual_groups k minPO
          (.eachFrom ⟨some x, pre ++ c :: post, size, po⟩ (cpl (address x).bits k.bits)) (c :: post)
          (size - (0 + sizes pre)) (by simp [ValIterator.vals, hidx])
          (fun consume s => eachFrom_eq hwf consume _ s) (fun d hd => bins_wf d (by simp [hd]))
          (fun d hd => hhigh d (by simp [hd]) (hgt d hd)) (by rw [size_eq]; simp; omega)
    refine (G1.append G2 fun v hv w hw => (hS2 w hw).symm ▸ hS1 v hv).of_perm ?_
    simp

/-! ## The values `eachNeighbour` presents -/

/-- On a valid pot, with `DefaultPof(n)` and a key as the pivot, the bins `eachBin` presents
group the stored values. -/
theorem groups_of_valid {t : Pot α} (ht : Valid t) :
    Groups k minPO (binsOf k.bits (defaultPof n) minPO t) (vals t) := by
  rcases ht with rfl | ⟨hpo, hwf, hnd⟩
  · simpa [binsOf, empty, newPot] using
      (Groups.nil (k := k) (by simp) : Groups k minPO [] ([] : List α))
  · exact binsOf_groups k minPO hwf (fun _ _ => by rw [hpo]; exact Nat.zero_le _) hnd

/-- On a valid pot, with `DefaultPof(n)` and a key as the pivot, each bin `eachBin` presents runs
over values the pot stores. -/
theorem binsOf_valid {t : Pot α} (ht : Valid t) {B : Bin α}
    (hB : B ∈ binsOf k.bits (defaultPof n) minPO t) :
    (∀ {σ : Type} (consume : α → σ → σ × Bool) (s : σ),
      B.valIterator.run consume s = feed consume B.valIterator.vals s) ∧
    ∀ v ∈ B.valIterator.vals, v ∈ vals t :=
  have hg := groups_of_valid k minPO ht
  ⟨hg.run_eq B hB, fun _ hv => (hg.mem_of_mem hB hv).1⟩

theorem mem_neighboursTail {pin : Option α} {po : Nat} {higher pre : List (Pot α)} {v : α}
    {q : Nat} : (v, q) ∈ neighboursTail pin po higher pre ↔
      ((v ∈ pin.toList ∨ ∃ c ∈ higher, v ∈ vals c) ∧ q = po) ∨ ∃ c ∈ pre, v ∈ vals c ∧ q = c.po := by
  simp only [neighboursTail, List.mem_append, List.mem_map, List.mem_flatMap, Prod.mk.injEq,
    mem_valsOf, List.mem_reverse]
  constructor
  · rintro (⟨w, hw, rfl, rfl⟩ | ⟨c, hc, w, hw, rfl, rfl⟩)
    exacts [.inl ⟨hw, rfl⟩, .inr ⟨c, hc, hw, rfl⟩]
  · rintro (⟨hw, rfl⟩ | ⟨c, hc, hw, rfl⟩)
    exacts [.inl ⟨v, hw, rfl, rfl⟩, .inr ⟨c, hc, v, hw, rfl, rfl⟩]

section Node

variable {x : α} {bins : List (Pot α)}
  (hcpl : ∀ c ∈ bins, ∀ v ∈ vals c, cpl (address x).bits (address v).bits = c.po)

include hcpl

/-- The tail of `eachNeighbour` on a node presents stored values at their orders to the pivot
when the pin is at order `vpo` from it, the bins `higher` lie above and the bins `pre` below. -/
theorem neighboursTail_sound {higher pre : List (Pot α)}
    (hh : ∀ c ∈ higher, c ∈ bins ∧ cpl (address x).bits k.bits < c.po)
    (hp : ∀ c ∈ pre, c ∈ bins ∧ c.po < cpl (address x).bits k.bits) :
    ∀ v q, (v, q) ∈ neighboursTail (some x) (cpl (address x).bits k.bits) higher pre →
      v ∈ valsOf bins ++ [x] ∧ q = cpl (address v).bits k.bits := by
  intro v q hvq
  rcases mem_neighboursTail.1 hvq with ⟨hv | ⟨c, hc, hv⟩, rfl⟩ | ⟨c, hc, hv, rfl⟩
  · simp only [Option.toList_some, List.mem_singleton] at hv
    subst hv
    simp
  · exact ⟨by simp [mem_valsOf]; exact .inl ⟨c, (hh c hc).1, hv⟩,
      (cpl_of_gt k (by rw [hcpl c (hh c hc).1 v hv]; exact (hh c hc).2)).symm⟩
  · exact ⟨by simp [mem_valsOf]; exact .inl ⟨c, (hp c hc).1, hv⟩,
      (cpl_of_lt k (hcpl c (hp c hc).1 v hv) (hp c hc).2).symm⟩

/-- The walk of `eachNeighbour` along a node's bins presents stored values at their orders to
the pivot. -/
theorem neighboursAt_sound (hsorted : (bins.map Pot.po).Pairwise (· < ·))
    (ih : ∀ b ∈ bins, b.po = cpl (address x).bits k.bits →
      ∀ v q, (v, q) ∈ neighboursOf k.bits (defaultPof n) b → v ∈ vals b ∧ q = cpl (address v).bits k.bits) :
    ∀ (pre rest : List (Pot α)), bins = pre.reverse ++ rest →
      (∀ c ∈ pre, c.po < cpl (address x).bits k.bits) → ∀ v q,
      (v, q) ∈ neighboursAt k.bits (defaultPof n) (some x) (cpl (address x).bits k.bits) pre rest →
        v ∈ valsOf bins ++ [x] ∧ q = cpl (address v).bits k.bits
  | pre, [], hbins, hpre => by
    simp only [neighboursAt]
    exact neighboursTail_sound k hcpl (by simp) (fun c hc => ⟨by simp [hbins, hc], hpre c hc⟩)
  | pre, b :: rest, hbins, hpre => by
    have hrest : ∀ c ∈ rest, b.po < c.po := fun c hc => by
      rw [hbins] at hsorted; exact po_lt_of_sorted_split hsorted hc
    have hpre' : ∀ c ∈ pre, c ∈ bins ∧ c.po < cpl (address x).bits k.bits :=
      fun c hc => ⟨by simp [hbins, hc], hpre c hc⟩
    simp only [neighboursAt]
    split
    · exact neighboursAt_sound hsorted ih (b :: pre) rest (by simp [hbins])
        (by simpa [*] using hpre)
    · split
      · intro v q hvq
        rcases List.mem_append.1 hvq with hvq | hvq
        · obtain ⟨hv, hq⟩ := ih b (by simp [hbins]) ‹_› v q hvq
          exact ⟨by simp [mem_valsOf]; exact .inl ⟨b, by simp [hbins], hv⟩, hq⟩
        · exact neighboursTail_sound k hcpl
            (fun c hc => ⟨by simp [hbins, hc], by have := hrest c hc; omega⟩) hpre' v q hvq
      · exact neighboursTail_sound k hcpl (fun c hc => ⟨by simp [hbins, hc], by
          rcases List.mem_cons.1 hc with rfl | hc
          · omega
          · have := hrest c hc; omega⟩) hpre'

end Node

/-- With `DefaultPof(n)` and a key as the pivot, `eachNeighbour` presents stored values, each at
its order to the pivot, on a well-formed node whose order does not exceed its pin's. -/
theorem neighboursOf_sound {t : Pot α} (ht : Wf t)
    (hfloor : ∀ x, t.pin = some x → t.po ≤ cpl (address x).bits k.bits) :
    ∀ v q, (v, q) ∈ neighboursOf k.bits (defaultPof n) t → v ∈ vals t ∧ q = cpl (address v).bits k.bits := by
  induction ht with
  | @node x bins size po size_eq sorted bins_wf bins_po bins_cpl ih =>
  have hwf : Wf (⟨some x, bins, size, po⟩ : Pot α) := .node size_eq sorted bins_wf bins_po bins_cpl
  have hpof : defaultPof n (toBytes (some x)) k.bits po =
      (cpl (address x).bits k.bits, decide (address x = k)) := Key.defaultPof_key (hfloor x rfl)
  simp only [neighboursOf, hwf.size_pos.ne', if_false, hpof, vals_mk, Option.toList_some]
  split
  · rename_i hxk
    have hxk : address x = k := by simpa using hxk
    intro v q hvq
    rcases mem_neighboursTail.1 hvq with ⟨hv | ⟨c, hc, -⟩, rfl⟩ | ⟨c, hc, hv, rfl⟩
    · simp only [Option.toList_some, List.mem_singleton] at hv
      subst hv
      simp
    · simp at hc
    · rw [List.mem_reverse] at hc
      refine ⟨by simp [mem_valsOf]; exact .inl ⟨c, hc, hv⟩, ?_⟩
      rw [← hxk, cpl_comm, bins_cpl c hc v hv]
  · exact neighboursAt_sound k bins_cpl sorted
      (fun b hb hbk => ih b hb (fun y hy => Wf.bin_floor hwf hb hbk hy)) [] bins (by simp) (by simp)

/-- On a valid pot, the descending `EachBin` feeds the bins of `binsOf` in reverse. -/
theorem eachBin_desc_of_valid {σ : Type} {t : Pot α} (ht : Valid t) (pivot : Bits) (pof : Pof)
    (minPO : Nat) (consumeBin : Bin α → σ → σ × Bool) (s : σ) :
    EachBin t pivot pof minPO consumeBin false s =
      (feed consumeBin (binsOf pivot pof minPO t).reverse s).1 := by
  rcases ht with rfl | ⟨-, hwf, -⟩
  · rfl
  · rw [EachBin, if_neg Bool.false_ne_true, eachBinDesc_eq pivot pof minPO consumeBin hwf]

end Swarm.Pot
