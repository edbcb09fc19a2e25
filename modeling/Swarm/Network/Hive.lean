import Swarm.Network.Info

/-!
# The hive text

`string` of network/kademlia.go, the text `String` returns and `GetHealthInfo` reports as `Hive`:
a header with the base address and the sizes of the default pots, then a table of
`MaxProxDisplay` rows, row `i` showing the connections and the known peers at order `i` from the
base, with a `DEPTH` line before the row of the depth. As in `kademliaInfo`, a bin at order
`MaxProxDisplay - 1` or deeper writes to the last row. The build's commit hash `sv.GitCommit` and
the clock reading `time.Now().UTC().Format(time.UnixDate)` are arguments. The texts the table is
made of are ASCII, so a length in bytes is a length in characters. The running count `rest`,
which nothing reads, is left out.

Read `string_of_run` first: in every state of a run the text is built exactly when
`MaxProxDisplay` is positive, or zero with no known peer; otherwise `make` panics on a negative
length, and the first bin on row `-1`. In the text, table row `i` below the last starts with the
number of connections, and of known peers, at order `i`. On valid pots `string_pos`, `string_zero`
and `string_neg` give the text, and `hiveRowsOf_getD` reads off a row of the table.
-/

namespace Swarm.Network

open Pot

/-! ## Formatting -/

/-- `fmt.Sprintf("%Nd", n)` with `pad` a blank, and `"%0Nd"` with `pad` a zero on `n ≥ 0`: the
decimal digits of `n`, padded on the left to `width` characters. -/
def padDecimal (pad : Char) (width : Nat) (n : Int) : String :=
  ⟨List.replicate (width - (toString n).length) pad⟩ ++ toString n

/-- `strings.Join`. -/
def strJoin (sep : String) : List String → String
  | [] => ""
  | [a] => a
  | a :: b :: l => a ++ sep ++ strJoin sep (b :: l)

/-- `s[:n]` on a string of at least `n` bytes. -/
def sliceTo (s : String) (n : Nat) : String := ⟨s.data.take n⟩

/-- The rule that opens and closes the text. -/
def hiveRule : String :=
  "========================================================================="

/-- `wsrow`, the blanks that pad a live row. -/
def wsrow : String := "                          "

/-- `hex.EncodeToString(e.Address()[:2])`: the first two bytes of the address, in hexadecimal. -/
def hexPrefix (e : Entry) : String := Kademlia.hexBits ((address e).bits.take 16)

/-- `Label`: the first four hexadecimal digits of the entry's address and its retries. -/
def Label (e : Entry) : String :=
  sliceTo (Kademlia.hexBits (address e).bits) 4 ++ " (" ++ toString e.retries ++ ")"

/-! ## The text -/

/-- The closure `string` hands a bin's `ValIterator`: it appends the text `f e` of an entry to
the row, and stops at the fourth. -/
def rowConsumer (f : Entry → String) (e : Entry) (row : List String) : List String × Bool :=
  (row ++ [f e], decide (row.length + 1 < 4))

/-- The row `string` writes for a bin of connections: `%2d` of its size and `hexPrefix` of at most
four of its entries, joined by blanks, padded with `wsrow` and cut to 31 bytes; `r[:31]` panics on
a shorter text. -/
def liveRow (bin : Bin Entry) : Except String String :=
  let r := strJoin " " (padDecimal ' ' 2 bin.size ::
    (bin.valIterator.run (rowConsumer hexPrefix) []).1) ++ wsrow
  if r.length < 31 then
    .error ("runtime error: slice bounds out of range [:31] with length " ++ toString r.length)
  else .ok (sliceTo r 31)

/-- The row `string` writes for a bin of known peers: `%2d` of its size and the labels of at most
four of its entries, joined by blanks; a negative size panics. -/
def peersRow (bin : Bin Entry) : Except String String :=
  if bin.size < 0 then .error "bin size shouldn\x27t be less than zero"
  else .ok (strJoin " " (padDecimal ' ' 2 bin.size ::
    (bin.valIterator.run (rowConsumer Label) []).1))

/-- The bin consumer of both walks of `string`: it writes the row `row bin` makes, unless making
it panics, at the bin's display row; an index out of the rows panics too, which ends the walk. -/
def hiveConsumer (maxProxDisplay : Int) (row : Bin Entry → Except String String)
    (bin : Bin Entry) : Except String (List String) → Except String (List String) × Bool
  | .error e => (.error e, false)
  | .ok rows =>
    match row bin with
    | .error e => (.error e, false)
    | .ok r =>
      let po := displayRow maxProxDisplay bin.proximityOrder
      if 0 ≤ po ∧ po < rows.length then (.ok (rows.set po.toNat r), true)
      else (.error (indexPanic po rows.length), false)

/-- A walk of `string` from the rows `make` gave: the rows of the bins
`t.EachBin(k.base, Pof, 0, ..., true)` presents. A nil pot presents no bin. -/
def hiveRows (t : Option (Pot Entry)) (base : Key 256) (maxProxDisplay : Int)
    (row : Bin Entry → Except String String) (rows : List String) :
    Except String (List String) :=
  match t with
  | none => .ok rows
  | some t => EachBin t base.bits pof 0 (hiveConsumer maxProxDisplay row) true (.ok rows)

/-- The line of table row `i`: `%03d` of `i`, its live row and its row of known peers, an empty
row shown as a count of zero. -/
def hiveLine (i : Nat) (left right : String) : String :=
  padDecimal '0' 3 i ++ " " ++
    (if left.length = 0 then " 0                             " else left) ++ " | " ++
    (if right.length = 0 then " 0" else right)

/-- The lines of the table: the line of row `i` for each `i` below `maxProxDisplay`, with the
`DEPTH` line before the row of the depth. -/
def hiveTable (maxProxDisplay : Nat) (depth : Int) (liverows peersrows : List String) :
    List String :=
  (List.range maxProxDisplay).flatMap fun i =>
    (if (i : Int) = depth then
      ["============ DEPTH: " ++ toString i ++ " =========================================="]
    else []) ++ [hiveLine i (liverows.getD i "") (peersrows.getD i "")]

/-- The lines before the table: the rule, the commit hash when there is one, the clock reading
with the base address, and the sizes of the default pots with three of the parameters. -/
def Kademlia.hiveHeader (k : Kademlia) (gitCommit now : String) : List String :=
  [hiveRule] ++ (if gitCommit.length > 0 then ["commit hash: " ++ gitCommit] else []) ++
    [now ++ " KΛÐΞMLIΛ hive: queen\x27s address: " ++ Kademlia.hexBits k.base.bits,
      "population: " ++ toString (potSize k.defaultIndex.conns) ++ " (" ++
        toString (potSize k.defaultIndex.addrs) ++ "), NeighbourhoodSize: " ++
        toString k.params.neighbourhoodSize ++ ", MinBinSize: " ++ toString k.params.minBinSize ++
        ", MaxBinSize: " ++ toString k.params.maxBinSize]

/-- `string`: both `make`s, then the walk of the connections and the walk of the known peers,
then the header, the table and the rule, each on a line of its own after a first newline. -/
def Kademlia.string (k : Kademlia) (gitCommit now : String) : Except String String := do
  let m := k.params.maxProxDisplay
  if m < 0 then throw "runtime error: makeslice: len out of range"
  let liverows ← hiveRows k.defaultIndex.conns k.base m liveRow (List.replicate m.toNat "")
  let peersrows ← hiveRows k.defaultIndex.addrs k.base m peersRow (List.replicate m.toNat "")
  let depth := depthForPot k.defaultIndex.conns k.params.neighbourhoodSize k.base
  pure ("\n" ++ strJoin "\n"
    (k.hiveHeader gitCommit now ++ hiveTable m.toNat depth liverows peersrows ++ [hiveRule]))

/-- The live row of a bin with a value: the text of its size and of its first four values, cut to
31 bytes. -/
def liveText (B : Bin Entry) : String :=
  sliceTo (strJoin " " (padDecimal ' ' 2 B.size :: (B.valIterator.vals.take 4).map hexPrefix) ++
    wsrow) 31

/-- The row of known peers of a bin: the text of its size and of the labels of its first four
values. -/
def peersText (B : Bin Entry) : String :=
  strJoin " " (padDecimal ' ' 2 B.size :: (B.valIterator.vals.take 4).map Label)

/-- The rows a walk of `string` leaves on a pot, `m` rows made: the text of each bin the pot
presents, at the smaller of its order and `m - 1`, a deeper bin overwriting a shallower one. -/
def hiveRowsOf (t : Pot Entry) (base : Key 256) (m : Nat) (text : Bin Entry → String) :
    List String :=
  (binsOf base.bits pof 0 t).foldl (fun r B => r.set (min B.proximityOrder (m - 1)) (text B))
    (List.replicate m "")

/-! ## Formatting lemmas -/

/-- `padDecimal` pads to at least its width. -/
theorem length_padDecimal (pad : Char) (width : Nat) (n : Int) :
    width ≤ (padDecimal pad width n).length := by
  rw [padDecimal, String.length_append, String.length_mk, List.length_replicate]
  omega

/-- A join starts with its first text. -/
theorem strJoin_cons (sep a : String) : ∀ l, ∃ s, strJoin sep (a :: l) = a ++ s
  | [] => ⟨"", (String.append_empty a).symm⟩
  | b :: l => ⟨sep ++ strJoin sep (b :: l), by rw [strJoin, String.append_assoc]⟩

/-- A join of two texts or more is at least as long as the first two with the separator between
them. -/
theorem length_strJoin_cons (sep a b : String) (l : List String) :
    a.length + sep.length + b.length ≤ (strJoin sep (a :: b :: l)).length := by
  obtain ⟨s, hs⟩ := strJoin_cons sep b l
  rw [strJoin, hs, String.length_append, String.length_append, String.length_append]
  omega

/-- The hex of a bit list has one digit for every four bits. -/
theorem length_hexBits : ∀ l : Bits, (Kademlia.hexBits l).length = l.length / 4
  | _ :: _ :: _ :: _ :: rest => by
    rw [Kademlia.hexBits, String.length_append, length_hexBits rest]
    simp only [List.length_cons, Char.length_toString]
    omega
  | [] | [_] | [_, _] | [_, _, _] => by simp [Kademlia.hexBits]

/-- The hex prefix of an entry's address has four digits. -/
theorem length_hexPrefix (e : Entry) : (hexPrefix e).length = 4 := by
  rw [hexPrefix, length_hexBits, List.length_take, (address e).length_bits]
  rfl

/-- The walk over a bin's values appends the texts of its first four. -/
theorem feed_rowConsumer (f : Entry → String) :
    ∀ (vs : List Entry) (row : List String), row.length < 4 →
      (feed (rowConsumer f) vs row).1 = row ++ (vs.take (4 - row.length)).map f
  | [], row, _ => by simp [feed]
  | v :: vs, row, h => by
    rw [feed_cons]
    simp only [rowConsumer]
    by_cases h4 : row.length + 1 < 4
    · rw [if_pos (decide_eq_true h4), feed_rowConsumer f vs _ (by simpa using h4)]
      obtain ⟨j, hj⟩ : ∃ j, 4 - row.length = j + 1 := ⟨3 - row.length, by omega⟩
      simp [hj, show 4 - (row.length + 1) = j by omega]
    · rw [if_neg (by simpa using h4), show 4 - row.length = 1 by omega]
      simp

/-! ## The rows of a bin -/

section Bin

variable {B : Bin Entry}
  (hrun : ∀ {σ : Type} (consume : Entry → σ → σ × Bool) (s : σ),
    B.valIterator.run consume s = feed consume B.valIterator.vals s)

include hrun

/-- A bin with a value makes its live row. -/
theorem liveRow_eq (hne : B.valIterator.vals ≠ []) : liveRow B = .ok (liveText B) := by
  obtain ⟨v, vs, hv⟩ := List.exists_cons_of_ne_nil hne
  have hlen := length_strJoin_cons " " (padDecimal ' ' 2 B.size) (hexPrefix v)
    ((vs.take 3).map hexPrefix)
  have hpad := length_padDecimal ' ' 2 B.size
  have hsep : " ".length = 1 := rfl
  have hws : wsrow.length = 26 := rfl
  rw [length_hexPrefix] at hlen
  rw [liveRow, hrun, feed_rowConsumer _ _ [] (by decide), List.nil_append, List.length_nil, hv,
    show 4 - 0 = 3 + 1 from rfl, List.take_succ_cons, List.map_cons,
    if_neg (by rw [String.length_append]; omega), liveText, hv]
  rfl

/-- A bin of a size that is not negative makes its row of known peers. -/
theorem peersRow_eq (hsize : 0 ≤ B.size) : peersRow B = .ok (peersText B) := by
  rw [peersRow, if_neg (not_lt.2 hsize), hrun, feed_rowConsumer _ _ [] (by decide),
    List.nil_append]
  rfl

end Bin

/-- On the bins of a valid pot, `liveRow` does not panic and gives the text of the connections. -/
theorem liveRow_of_groups {base : Key 256} {L : List (Bin Entry)} {S : List Entry}
    (hg : Groups base 0 L S) : ∀ B ∈ L, liveRow B = .ok (liveText B) :=
  fun B hB => liveRow_eq (hg.run_eq B hB) (hg.ne_nil B hB)

/-- On the bins of a valid pot, `peersRow` does not panic and gives the text of the known peers. -/
theorem peersRow_of_groups {base : Key 256} {L : List (Bin Entry)} {S : List Entry}
    (hg : Groups base 0 L S) : ∀ B ∈ L, peersRow B = .ok (peersText B) :=
  fun B hB => peersRow_eq (hg.run_eq B hB) (by rw [hg.size_eq B hB]; exact Int.natCast_nonneg _)

/-! ## The walks on valid pots -/

/-- On rows of length `m > 0`, over bins whose rows are made, no bin is out of range: the walk
writes each bin's row at the smaller of its order and `m - 1`. -/
theorem feed_hiveConsumer {m : Nat} (hm : 0 < m) {row : Bin Entry → Except String String}
    {f : Bin Entry → String} :
    ∀ (L : List (Bin Entry)), (∀ B ∈ L, row B = .ok (f B)) → ∀ (rows : List String),
      rows.length = m → (feed (hiveConsumer m row) L (.ok rows)).1 =
        .ok (L.foldl (fun r B => r.set (min B.proximityOrder (m - 1)) (f B)) rows)
  | [], _, _, _ => rfl
  | B :: L, hL, rows, hr => by
    obtain ⟨h0, hn⟩ := displayRow_toNat hm B.proximityOrder
    have hstep : hiveConsumer m row B (.ok rows) =
        (.ok (rows.set (min B.proximityOrder (m - 1)) (f B)), true) := by
      simp only [hiveConsumer, hL B (.head _), hn, hr]
      rw [if_pos ⟨h0, by omega⟩]
    rw [feed_cons, hstep]
    exact feed_hiveConsumer hm L (fun B' h => hL B' (.tail _ h)) _ (by rw [List.length_set, hr])

section Valid

variable {t : Pot Entry} (ht : Valid t) (base : Key 256) {text : Bin Entry → String}

include ht

omit ht in
/-- With `m > 0` rows, a walk of `string` over a pot whose bins make their rows leaves
`hiveRowsOf`. -/
theorem hiveRows_pos {row : Bin Entry → Except String String}
    (hrow : ∀ B ∈ binsOf base.bits pof 0 t, row B = .ok (text B)) {m : Nat} (hm : 0 < m) :
    hiveRows (some t) base m row (List.replicate m "") = .ok (hiveRowsOf t base m text) := by
  simp only [hiveRows, EachBin, if_true, eachBin_eq]
  exact feed_hiveConsumer hm _ hrow _ (List.length_replicate _ _)

/-- With no rows, it panics at row `-1` on the first bin, which there is exactly when the pot
holds a value. -/
theorem hiveRows_zero {row : Bin Entry → Except String String}
    (hrow : ∀ B ∈ binsOf base.bits pof 0 t, row B = .ok (text B)) :
    hiveRows (some t) base 0 row [] =
      if vals t = [] then .ok [] else .error "runtime error: index out of range [-1]" := by
  have hg : Groups base 0 (binsOf base.bits pof 0 t) (vals t) := groups_of_valid base 0 ht
  simp only [hiveRows, EachBin, if_true, eachBin_eq]
  rcases hL : binsOf base.bits pof 0 t with _ | ⟨B, L⟩
  · rw [hL] at hg
    have hnil : vals t = [] := by simpa [binVals] using hg.perm.symm
    simp [hnil, feed]
  · have hne : vals t ≠ [] := fun hnil => by
      have hB := hg.ne_nil B (by simp [hL])
      have := hg.perm
      rw [hnil, hL] at this
      simp [binVals, hB] at this
    rw [hL] at hrow
    simp only [hne, if_false, feed_cons, hiveConsumer, hrow B (.head _), displayRow,
      show (B.proximityOrder : Int) ≥ ((0 : Nat) : Int) from Int.natCast_nonneg _, if_true]
    rfl

variable (text) in
/-- Row `i` below the last of the rows a walk leaves on a valid pot is the text of the bin at
order `i`, whose size counts the values there, or empty when there is none. -/
theorem hiveRowsOf_getD {m i : Nat} (hi : i + 1 < m) :
    (countAt base (vals t) i = 0 ∧ (hiveRowsOf t base m text).getD i "" = "") ∨
      ∃ B ∈ binsOf base.bits pof 0 t, B.size = countAt base (vals t) i ∧
        countAt base (vals t) i ≠ 0 ∧ (hiveRowsOf t base m text).getD i "" = text B := by
  have hg : Groups base 0 (binsOf base.bits pof 0 t) (vals t) := groups_of_valid base 0 ht
  rw [hiveRowsOf, List.getD_eq_getElem?_getD,
    getElem?_foldl_set _ _ _ _ _ fun B _ => by simp; omega, List.getElem?_replicate,
    if_pos (by omega), show (fun B : Bin Entry => decide (min B.proximityOrder (m - 1) = i)) =
      fun B => decide (B.proximityOrder = i) from funext fun B => by
        simp only [decide_eq_decide]; omega]
  cases hf : (binsOf base.bits pof 0 t).reverse.find? fun B => decide (B.proximityOrder = i) with
  | some B =>
    have hB := List.mem_reverse.1 (List.mem_of_find?_eq_some hf)
    have hpo : B.proximityOrder = i := by simpa using List.find?_some hf
    have hcount := hg.countAt_bin hB
    rw [hpo] at hcount
    refine .inr ⟨B, hB, by rw [hg.size_eq B hB, hcount], ?_, rfl⟩
    rw [hcount]
    exact List.length_pos.2 (hg.ne_nil B hB) |>.ne'
  | none =>
    refine .inl ⟨hg.countAt_gap (Nat.zero_le i) fun B hB hpo => ?_, rfl⟩
    have := List.find?_eq_none.1 hf B (List.mem_reverse.2 hB)
    simp [hpo] at this

end Valid

/-! ## The text of the default pots -/

namespace Kademlia

variable {k : Kademlia} (gitCommit now : String)

/-- With a negative `MaxProxDisplay`, `make` panics. -/
theorem string_neg (hm : k.params.maxProxDisplay < 0) :
    k.string gitCommit now = .error "runtime error: makeslice: len out of range" := by
  simp only [string, if_pos hm]
  rfl

section Valid

variable {c a : Pot Entry} (hc : k.defaultIndex.conns = some c)
  (ha : k.defaultIndex.addrs = some a) (hcv : Valid c) (hav : Valid a)

include hc ha hcv hav

/-- On valid default pots and `m > 0` rows, `string` builds the text, with the rows the walks
leave in its table. -/
theorem string_pos {m : Nat} (hm : k.params.maxProxDisplay = m) (hpos : 0 < m) :
    k.string gitCommit now = .ok ("\n" ++ strJoin "\n" (k.hiveHeader gitCommit now ++
      hiveTable m (depthForPot (some c) k.params.neighbourhoodSize k.base)
        (hiveRowsOf c k.base m liveText) (hiveRowsOf a k.base m peersText) ++ [hiveRule])) := by
  simp only [string, hm, hc, ha, Int.toNat_natCast, Int.not_lt.2 (Int.natCast_nonneg m),
    if_false, hiveRows_pos k.base (liveRow_of_groups (groups_of_valid k.base 0 hcv)) hpos,
    hiveRows_pos k.base (peersRow_of_groups (groups_of_valid k.base 0 hav)) hpos]
  rfl

/-- With no rows, `string` on valid default pots panics on the first bin, which there is exactly
when a peer is known. -/
theorem string_zero (hm : k.params.maxProxDisplay = 0) (hsub : vals a = [] → vals c = []) :
    k.string gitCommit now = if vals a = [] then
      .ok ("\n" ++ strJoin "\n" (k.hiveHeader gitCommit now ++ [hiveRule]))
    else .error "runtime error: index out of range [-1]" := by
  simp only [string, hm, hc, ha, Int.toNat_zero, List.replicate_zero, Int.lt_irrefl, if_false,
    hiveRows_zero hcv k.base (liveRow_of_groups (groups_of_valid k.base 0 hcv)),
    hiveRows_zero hav k.base (peersRow_of_groups (groups_of_valid k.base 0 hav))]
  by_cases hna : vals a = []
  · simp [hna, hsub hna]
    rfl
  · by_cases hnc : vals c = [] <;> simp [hna, hnc] <;> rfl

end Valid

end Kademlia

section Run

variable (isSameAs : Capability → Capability → Bool) {addr : Key 256} {params : KadParams}
  {full light : Capability} {calls : List Call} {k : Kademlia}

/-- In every state of a run that keeps the flags, `string` panics in `make` on a negative
`MaxProxDisplay`, and with none on row `-1` when a peer is known. On a positive `MaxProxDisplay`
it builds the text, and the table row `i` below the last starts with `%2d` of the number of
connections at order `i`, and of known peers there; a row with none is empty, which `hiveLine`
shows as a count of zero. -/
theorem string_of_run
    (h : Run isSameAs keepsLive (NewKademlia addr params full light) calls k)
    (gitCommit now : String) :
    ∃ c a, k.defaultIndex.conns = some c ∧ k.defaultIndex.addrs = some a ∧
      (k.params.maxProxDisplay < 0 →
        k.string gitCommit now = .error "runtime error: makeslice: len out of range") ∧
      (k.params.maxProxDisplay = 0 → k.string gitCommit now = if vals a = [] then
          .ok ("\n" ++ strJoin "\n" (k.hiveHeader gitCommit now ++ [hiveRule]))
        else .error "runtime error: index out of range [-1]") ∧
      ∀ m : Nat, k.params.maxProxDisplay = m → 0 < m → ∃ liverows peersrows,
        k.string gitCommit now = .ok ("\n" ++ strJoin "\n" (k.hiveHeader gitCommit now ++
          hiveTable m (depthForPot (some c) k.params.neighbourhoodSize k.base) liverows
            peersrows ++ [hiveRule])) ∧
        ∀ i, i + 1 < m →
          (countAt k.base (vals c) i = 0 ∧ liverows.getD i "" = "" ∨
            ∃ s, countAt k.base (vals c) i ≠ 0 ∧ liverows.getD i "" =
              sliceTo (padDecimal ' ' 2 (countAt k.base (vals c) i) ++ s) 31) ∧
          (countAt k.base (vals a) i = 0 ∧ peersrows.getD i "" = "" ∨
            ∃ s, countAt k.base (vals a) i ≠ 0 ∧
              peersrows.getD i "" = padDecimal ' ' 2 (countAt k.base (vals a) i) ++ s) := by
  obtain ⟨c, a, hc, ha, hf⟩ := flags_run isSameAs h (flags_new addr params full light)
  refine ⟨c, a, hc, ha, Kademlia.string_neg gitCommit now,
    fun hm => Kademlia.string_zero gitCommit now hc ha hf.conns_valid hf.addrs_valid hm hf.conns_nil,
    fun m hm hpos => ⟨_, _, Kademlia.string_pos gitCommit now hc ha hf.conns_valid hf.addrs_valid
      hm hpos, fun i hi => ⟨?_, ?_⟩⟩⟩
  · rcases hiveRowsOf_getD hf.conns_valid k.base liveText hi with h0 | ⟨B, -, hsize, hne, hr⟩
    · exact .inl h0
    · obtain ⟨s, hs⟩ := strJoin_cons " " (padDecimal ' ' 2 B.size)
        ((B.valIterator.vals.take 4).map hexPrefix)
      exact .inr ⟨s ++ wsrow, hne, by rw [hr, liveText, hs, ← hsize, String.append_assoc]⟩
  · rcases hiveRowsOf_getD hf.addrs_valid k.base peersText hi with h0 | ⟨B, -, hsize, hne, hr⟩
    · exact .inl h0
    · obtain ⟨s, hs⟩ := strJoin_cons " " (padDecimal ' ' 2 B.size)
        ((B.valIterator.vals.take 4).map Label)
      exact .inr ⟨s, hne, by rw [hr, peersText, hs, ← hsize]⟩

/-- The hive text after one peer connects to a new table. -/
theorem string_of_run_on :
    ∃ k, Run (fun a b => a == b) keepsLive (NewKademlia zeroKey NewKadParams ⟨0, [true]⟩ ⟨1, []⟩)
        [.on ⟨0, ⟨farKey, [1], [⟨0, [true]⟩]⟩⟩ 0] k ∧
      ∃ c a, k.defaultIndex.conns = some c ∧ k.defaultIndex.addrs = some a ∧
        (k.params.maxProxDisplay < 0 →
          k.string "" "" = .error "runtime error: makeslice: len out of range") ∧
        (k.params.maxProxDisplay = 0 → k.string "" "" = if vals a = [] then
            .ok ("\n" ++ strJoin "\n" (k.hiveHeader "" "" ++ [hiveRule]))
          else .error "runtime error: index out of range [-1]") ∧
        ∀ m : Nat, k.params.maxProxDisplay = m → 0 < m → ∃ liverows peersrows,
          k.string "" "" = .ok ("\n" ++ strJoin "\n" (k.hiveHeader "" "" ++
            hiveTable m (depthForPot (some c) k.params.neighbourhoodSize k.base) liverows
              peersrows ++ [hiveRule])) ∧
          ∀ i, i + 1 < m →
            (countAt k.base (vals c) i = 0 ∧ liverows.getD i "" = "" ∨
              ∃ s, countAt k.base (vals c) i ≠ 0 ∧ liverows.getD i "" =
                sliceTo (padDecimal ' ' 2 (countAt k.base (vals c) i) ++ s) 31) ∧
            (countAt k.base (vals a) i = 0 ∧ peersrows.getD i "" = "" ∨
              ∃ s, countAt k.base (vals a) i ≠ 0 ∧
                peersrows.getD i "" = padDecimal ' ' 2 (countAt k.base (vals a) i) ++ s) :=
  ⟨_, run_on_far, string_of_run _ run_on_far "" ""⟩

end Run

end Swarm.Network
