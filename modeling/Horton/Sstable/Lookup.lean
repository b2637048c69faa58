import Horton.Sstable.Layout
import Horton.Sstable.Writer
import Mathlib.Data.List.Sort

/-!
# Point lookups

The searches of the reader on the blocks of a table.  A block answers with its first entry of the key that the read may
observe, and otherwise says whether a larger key was seen (`dataLookup_spec`); the index leads to the last block that
starts below the key, or to the first one (`indexLookup_spec`); a key that was added to the bloom filter passes it
(`bloomMaybeContains_of_mem`).
-/

namespace Horton

open BlockDev

/-- The order of a table: keys ascending, the versions of a key newest first. -/
def SstEntry.Before (e e' : SstEntry) : Prop := e.key < e'.key ∨ e.key = e'.key ∧ e'.seq < e.seq

theorem SstEntry.Before.key_le {e e' : SstEntry} (h : e.Before e') : e.key ≤ e'.key :=
  h.elim le_of_lt fun h => h.1.le

namespace Sstable

variable {sh : Shape}

/-- The first entry of `key` that a read at `maxSeq` observes. -/
def visible (es : List SstEntry) (key : Bytes) (maxSeq : Nat) : Option SstEntry :=
  es.find? fun e => decide (e.key = key ∧ e.seq ≤ maxSeq)

theorem visible_eq_none {es : List SstEntry} {key : Bytes} {maxSeq : Nat} (h : ∀ e ∈ es, e.key ≠ key) :
    visible es key maxSeq = none := by
  rw [visible, List.find?_eq_none]
  intro e he hc
  exact h e he (of_decide_eq_true hc).1

theorem visible_append_of_ne {a b : List SstEntry} {key : Bytes} {maxSeq : Nat} (h : ∀ e ∈ a, e.key ≠ key) :
    visible (a ++ b) key maxSeq = visible b key maxSeq := by
  have ha : visible a key maxSeq = none := visible_eq_none h
  unfold visible at ha ⊢
  rw [List.find?_append, ha, Option.none_or]

/-- What a block says about `key`: the entry observed, or whether a larger key was seen. -/
def blockAnswer (b : List SstEntry) (key : Bytes) (valBuf maxSeq : Nat) : Except Error BlockOutcome :=
  match visible b key maxSeq with
  | some e => observe (parsed e) valBuf
  | none => if b.any (key < ·.key) then .ok .absent else .ok .truncated

/-! ### Inside a data block -/

section Block

variable {payload key : Bytes} {b : List SstEntry} {rstart valBuf id maxSeq : Nat}

theorem blockAnswer_skip {a : List SstEntry} (h : ∀ e ∈ a, e.key < key) :
    blockAnswer (a ++ b) key valBuf maxSeq = blockAnswer b key valBuf maxSeq := by
  have hany : a.any (key < ·.key) = false := by
    rw [List.any_eq_false]
    intro e he
    simpa using le_of_lt (h e he)
  unfold blockAnswer
  rw [visible_append_of_ne fun e he => ne_of_lt (h e he), List.any_append, hany, Bool.false_or]

/-- Only larger keys are left. -/
theorem blockAnswer_above {e : SstEntry} {l : List SstEntry} (h : ∀ x ∈ e :: l, key < x.key) :
    blockAnswer (e :: l) key valBuf maxSeq = .ok .absent := by
  unfold blockAnswer
  rw [visible_eq_none fun x hx => (ne_of_lt (h x hx)).symm]
  simp [h e (by simp)]

theorem blockEnd_entries (h : Entries payload b rstart) :
    blockEnd payload (encodeEntries b).length rstart id = .ok .truncated := by
  unfold blockEnd
  rw [if_pos h.padding]

theorem drop_eq_cons {i : Nat} {e : SstEntry} (h : b[i]? = some e) : b.drop i = e :: b.drop (i + 1) := by
  obtain ⟨hi, rfl⟩ := List.getElem?_eq_some_iff.mp h
  exact List.drop_eq_getElem_cons hi

/-- An entry that the read does not observe adds nothing. -/
theorem blockAnswer_hidden {e : SstEntry} {l : List SstEntry} (hkey : e.key = key) (hseq : ¬ e.seq ≤ maxSeq) :
    blockAnswer (e :: l) key valBuf maxSeq = blockAnswer l key valBuf maxSeq := by
  have hvis : visible (e :: l) key maxSeq = visible l key maxSeq := by
    unfold visible
    rw [List.find?_cons_of_neg]
    simp [hseq]
  unfold blockAnswer
  rw [hvis, List.any_cons, hkey]
  simp

theorem blockAnswer_seen {e : SstEntry} {l : List SstEntry} (hkey : e.key = key) (hseq : e.seq ≤ maxSeq) :
    blockAnswer (e :: l) key valBuf maxSeq = observe (parsed e) valBuf := by
  have hvis : visible (e :: l) key maxSeq = some e := by
    unfold visible
    rw [List.find?_cons_of_pos]
    simp [hkey, hseq]
  unfold blockAnswer
  rw [hvis]

theorem key_le_of_drop (hs : b.Pairwise fun x y => x.key ≤ y.key) {i : Nat} {e : SstEntry} (hi : b[i]? = some e) :
    ∀ x ∈ b.drop i, e.key ≤ x.key := by
  have hdrop := hs.sublist (List.drop_sublist i b)
  rw [drop_eq_cons hi, List.pairwise_cons] at hdrop
  intro x hx
  rw [drop_eq_cons hi] at hx
  rcases List.mem_cons.mp hx with rfl | hx
  · exact le_rfl
  · exact hdrop.1 x hx

theorem key_le_of_take (hs : b.Pairwise fun x y => x.key ≤ y.key) {i : Nat} {e : SstEntry} (hi : b[i]? = some e) :
    ∀ x ∈ b.take i, x.key ≤ e.key := by
  rw [← List.take_append_drop i b, List.pairwise_append] at hs
  intro x hx
  exact hs.2.2 x hx e (by rw [drop_eq_cons hi]; simp)

/-- Inside the run of a key, by the number of entries that follow. -/
theorem scanRun_spec (h : Entries payload b rstart) (hs : b.Pairwise fun x y => x.key ≤ y.key) {i n fuel : Nat}
    {e : SstEntry} (hi : b[i]? = some e) (hkey : e.key = key) (hn : b.length = i + 1 + n) (hf : n ≤ fuel) :
    scanRun payload key valBuf id maxSeq rstart fuel (parsed e) (offsetOf b (i + 1)) =
      blockAnswer (b.drop i) key valBuf maxSeq := by
  have hle := h.length_le
  induction n generalizing i e fuel with
  | zero =>
    have hend : offsetOf b (i + 1) = (encodeEntries b).length := by rw [← offsetOf_length, hn]
    have hnil : b.drop (i + 1) = [] := List.drop_eq_nil_iff.mpr (by omega)
    rw [drop_eq_cons hi, hnil]
    unfold scanRun
    split
    · rename_i hseq
      rw [blockAnswer_seen hkey hseq]
    · rename_i hseq
      rw [blockAnswer_hidden hkey hseq, hend]
      split
      · rfl
      · rw [h.stop (by omega)]
        exact blockEnd_entries h
  | succ n ih =>
    obtain ⟨fuel, rfl⟩ : ∃ f, fuel = f + 1 := ⟨fuel - 1, by omega⟩
    obtain ⟨e', hi'⟩ : ∃ e', b[i + 1]? = some e' := ⟨_, List.getElem?_eq_getElem (by omega)⟩
    have hlt : offsetOf b (i + 1) < (encodeEntries b).length := offsetOf_lt (by omega)
    have hkey' : key ≤ e'.key := by
      rw [← hkey]
      exact key_le_of_drop hs hi e' (by rw [drop_eq_cons hi, drop_eq_cons hi']; simp)
    unfold scanRun
    rw [drop_eq_cons hi]
    split
    · rename_i hseq
      rw [blockAnswer_seen hkey hseq]
    · rename_i hseq
      rw [blockAnswer_hidden hkey hseq, if_neg (by omega), h.entry _ _ hi']
      dsimp only
      split
      · rename_i hne
        have hlt' : key < e'.key := lt_of_le_of_ne hkey' (Ne.symm hne)
        rw [drop_eq_cons hi', blockAnswer_above]
        intro x hx
        rw [← drop_eq_cons hi'] at hx
        exact lt_of_lt_of_le hlt' (key_le_of_drop hs hi' x hx)
      · rename_i heq
        exact ih hi' (not_not.mp heq) (by omega) (by omega)

/-- The scan from entry `i` on. -/
theorem scanBlock_spec (h : Entries payload b rstart) (hs : b.Pairwise fun x y => x.key ≤ y.key) {i n fuel : Nat}
    (hn : b.length = i + n) (hf : n < fuel) :
    scanBlock payload key valBuf id maxSeq rstart fuel (offsetOf b i) = blockAnswer (b.drop i) key valBuf maxSeq := by
  have hle := h.length_le
  induction n generalizing i fuel with
  | zero =>
    obtain ⟨fuel, rfl⟩ : ∃ f, fuel = f + 1 := ⟨fuel - 1, by omega⟩
    have hend : offsetOf b i = (encodeEntries b).length := by rw [← offsetOf_length, hn]; rfl
    have hnil : b.drop i = [] := List.drop_eq_nil_iff.mpr (by omega)
    rw [hnil, scanBlock, hend]
    split
    · rw [h.stop (by omega)]
      exact blockEnd_entries h
    · rfl
  | succ n ih =>
    obtain ⟨fuel, rfl⟩ : ∃ f, fuel = f + 1 := ⟨fuel - 1, by omega⟩
    obtain ⟨e, hi⟩ : ∃ e, b[i]? = some e := ⟨_, List.getElem?_eq_getElem (by omega)⟩
    have hlt : offsetOf b i < (encodeEntries b).length := offsetOf_lt (by omega)
    rw [scanBlock, if_pos (by omega), h.entry _ _ hi]
    dsimp only
    split
    · rename_i hbelow
      rw [ih (by omega) (by omega), drop_eq_cons hi]
      have hskip : ∀ x ∈ [e], x.key < key := fun x hx => (List.mem_singleton.mp hx) ▸ hbelow
      exact (blockAnswer_skip hskip).symm
    split
    · rename_i hkey
      exact scanRun_spec (n := n) h hs hi hkey (by omega) (by omega)
    · rename_i hbelow hne
      have habove : key < e.key := lt_of_le_of_ne (not_lt.mp hbelow) (Ne.symm hne)
      rw [drop_eq_cons hi, blockAnswer_above]
      intro x hx
      rw [← drop_eq_cons hi] at hx
      exact lt_of_lt_of_le habove (key_le_of_drop hs hi x hx)

/-- Restart points are entries, so the search among them finds the last one below `key`. -/
theorem dataLookup_spec (hb : BlockOk sh b) (hs : b.Pairwise fun x y => x.key ≤ y.key) :
    dataLookup (logicalBody sh b) key valBuf id maxSeq = blockAnswer b key valBuf maxSeq := by
  obtain ⟨hle, htail⟩ := hb.length_le
  have hlen := hb.length_logicalBody
  have hcount := length_restartsOf b
  have hpos : 0 < b.length := List.length_pos_iff.mpr hb.ne_nil
  have hrcount : Bytes.leNat ((logicalBody sh b).drop ((logicalBody sh b).length - 2)) = (restartsOf b).length := by
    have hr := hb.restarts_le
    have hu : U16_MAX = 0xFFFF := rfl
    rw [hlen, hb.drop_logicalBody]
    exact leNat_two (by omega)
  have hrstart : (logicalBody sh b).length - (2 + (restartsOf b).length * 2) = rstartOf sh b := by omega
  have hbytes := length_le_encodeEntries b
  have hbelow : ∀ i < (restartsOf b).length, (do
      let roff ← orCorrupt id (restartAt (logicalBody sh b) (rstartOf sh b) i)
      let parsed ← orCorrupt id (dataEntryParse (logicalBody sh b) roff)
      return decide (parsed.1.key < key) : Except Error Bool) = .ok (b[16 * i]?.any (·.key < key)) := by
    intro i hi
    have hi' : 16 * i < b.length := by omega
    rw [hb.restartAt hi', List.getElem?_eq_getElem hi']
    show (orCorrupt id (dataEntryParse (logicalBody sh b) (offsetOf b (16 * i))) >>= _) = _
    rw [hb.entries.entry _ _ (List.getElem?_eq_getElem hi')]
    rfl
  obtain ⟨m, hm, hsplit⟩ := Search.exists_threshold (q := fun i => b[16 * i]?.any (·.key < key))
    (n := (restartsOf b).length) fun i j hij hj hlt => by
      have hj' : 16 * j < b.length := by omega
      have hi' : 16 * i < b.length := by omega
      rw [List.getElem?_eq_getElem hj'] at hlt
      rw [List.getElem?_eq_getElem hi']
      have hlej : b[16 * i].key ≤ b[16 * j].key := by
        refine key_le_of_drop hs (List.getElem?_eq_getElem hi') _ ?_
        rw [List.mem_drop_iff_getElem]
        exact ⟨16 * j - 16 * i, by omega, by congr 1; omega⟩
      have hltj : b[16 * j].key < key := of_decide_eq_true hlt
      exact decide_eq_true (lt_of_le_of_lt hlej hltj)
  have hsearch := Search.lowerBound_spec (m := m) (fun i hi => (hbelow i hi).trans (congrArg Except.ok (hsplit i hi)))
    (restartsOf b).length 0 (restartsOf b).length (by omega) (by omega) hm le_rfl
  unfold dataLookup
  rw [if_neg (by omega)]
  dsimp only
  rw [hrcount, if_neg (by omega), hrstart]
  show (Search.lowerBound _ _ _ _ >>= _) = _
  rw [hsearch]
  show (if m = 0 then _ else _) = _
  by_cases hm0 : m = 0
  · rw [if_pos hm0]
    exact scanBlock_spec (i := 0) (n := b.length) hb.entries hs (by omega) (by omega)
  · have hi' : 16 * (m - 1) < b.length := by omega
    have hprev : b[16 * (m - 1)].key < key := by
      have := hsplit (m - 1) (by omega)
      rw [List.getElem?_eq_getElem hi', decide_eq_true (by omega)] at this
      exact of_decide_eq_true this
    rw [if_neg hm0, hb.restartAt hi']
    show scanBlock _ _ _ _ _ _ _ _ = _
    rw [scanBlock_spec (n := b.length - 16 * (m - 1)) hb.entries hs (by omega) (by omega)]
    conv => rhs; rw [← List.take_append_drop (16 * (m - 1)) b]
    exact (blockAnswer_skip fun e he =>
      lt_of_le_of_lt (key_le_of_take hs (List.getElem?_eq_getElem hi') e he) hprev).symm

end Block

/-! ### In the index -/

section Index

variable {key : Bytes} {base indexId : Nat} {bs : List (List SstEntry)}

/-- The payload of an index block. -/
def indexPayload (sh : Shape) (base : Nat) (bs : List (List SstEntry)) : Bytes :=
  indexFrom base bs ++ Bytes.zeros (bodyEnd sh - (indexFrom base bs).length)

theorem indexEntryFrom_spec (pre post : Bytes) (id : Nat) {i : Nat} {b : List SstEntry} (hok : ∀ b ∈ bs, BlockOk sh b)
    (hid : id + bs.length ≤ U64_MAX + 1) (h : bs[i]? = some b) :
    ∃ next, indexEntryFrom (pre ++ indexFrom id bs ++ post) i pre.length = some (firstKeyOf b, id + i, next) := by
  induction bs generalizing pre id i with
  | nil => simp at h
  | cons c bs ih =>
    obtain ⟨hne, hlen⟩ := (hok c (by simp)).firstKey
    rw [List.length_cons] at hid
    have hpayload : pre ++ indexFrom id (c :: bs) ++ post =
        pre ++ encodeIndexEntry (firstKeyOf c) id (maxSeqOf c) ++ (indexFrom (id + 1) bs ++ post) := by
      rw [indexFrom]
      simp
    have hparse := indexEntryParse_append hne hlen (by omega : id ≤ U64_MAX) (maxSeqOf c) pre (indexFrom (id + 1) bs ++ post)
    cases i with
    | zero =>
      obtain rfl := Option.some.inj h
      rw [hpayload, indexEntryFrom, hparse]
      exact ⟨_, rfl⟩
    | succ i =>
      obtain ⟨next, hnext⟩ := ih (pre ++ encodeIndexEntry (firstKeyOf c) id (maxSeqOf c)) (id + 1)
        (fun x hx => hok x (by simp [hx])) (by omega) h
      refine ⟨next, ?_⟩
      rw [List.append_assoc _ _ post, List.length_append, length_encodeIndexEntry] at hnext
      rw [hpayload, indexEntryFrom, hparse]
      show indexEntryFrom _ i (pre.length + ((firstKeyOf c).length + 18)) = _
      rw [hnext, show id + 1 + i = id + (i + 1) by omega]

theorem indexCount_spec (indexId : Nat) (pre : Bytes) (id n fuel count : Nat) (hok : ∀ b ∈ bs, BlockOk sh b)
    (hid : id + bs.length ≤ U64_MAX + 1) (hf : bs.length < fuel) :
    indexCount (pre ++ indexFrom id bs ++ Bytes.zeros n) indexId fuel pre.length count = .ok (count + bs.length) := by
  induction bs generalizing pre id count fuel with
  | nil =>
    obtain ⟨fuel, rfl⟩ : ∃ f, fuel = f + 1 := ⟨fuel - 1, by omega⟩
    have hzero : Bytes.allZero ((pre ++ indexFrom id [] ++ Bytes.zeros n).drop pre.length) = true := by
      simp [indexFrom]
    rw [indexCount]
    split
    · rw [indexEntryParse_zero hzero]
      rfl
    · rfl
  | cons c bs ih =>
    obtain ⟨fuel, rfl⟩ : ∃ f, fuel = f + 1 := ⟨fuel - 1, by omega⟩
    obtain ⟨hne, hlen⟩ := (hok c (by simp)).firstKey
    rw [List.length_cons] at hid hf
    have hpayload : pre ++ indexFrom id (c :: bs) ++ Bytes.zeros n =
        pre ++ encodeIndexEntry (firstKeyOf c) id (maxSeqOf c) ++ (indexFrom (id + 1) bs ++ Bytes.zeros n) := by
      rw [indexFrom]
      simp
    have hparse := indexEntryParse_append hne hlen (by omega : id ≤ U64_MAX) (maxSeqOf c) pre
      (indexFrom (id + 1) bs ++ Bytes.zeros n)
    have hgo := ih (pre ++ encodeIndexEntry (firstKeyOf c) id (maxSeqOf c)) (id + 1) fuel (count + 1)
      (fun x hx => hok x (by simp [hx])) (by omega) (by omega)
    rw [List.append_assoc _ _ (Bytes.zeros n), List.length_append, length_encodeIndexEntry] at hgo
    have hlt : pre.length < (pre ++ encodeIndexEntry (firstKeyOf c) id (maxSeqOf c) ++
        (indexFrom (id + 1) bs ++ Bytes.zeros n)).length := by
      rw [List.length_append, List.length_append, length_encodeIndexEntry]
      omega
    rw [hpayload, indexCount, if_pos hlt, hparse]
    show indexCount _ indexId fuel (pre.length + ((firstKeyOf c).length + 18)) (count + 1) = _
    rw [hgo, List.length_cons]
    congr 1
    omega

/-- A table whose blocks are sorted, with an index of one block. -/
structure Indexed (sh : Shape) (base : Nat) (bs : List (List SstEntry)) : Prop where
  block : ∀ b ∈ bs, BlockOk sh b
  sorted : bs.flatten.Pairwise fun x y => x.key ≤ y.key
  ids : base + bs.length ≤ U64_MAX + 1
  fits : (indexFrom base bs).length ≤ bodyEnd sh

namespace Indexed

theorem entryAt (h : Indexed sh base bs) {i : Nat} {b : List SstEntry} (hi : bs[i]? = some b) :
    ∃ next, indexEntryAt (indexPayload sh base bs) i = some (firstKeyOf b, base + i, next) := by
  have := indexEntryFrom_spec [] (Bytes.zeros (bodyEnd sh - (indexFrom base bs).length)) base h.block h.ids hi
  simpa [indexEntryAt, indexPayload] using this

theorem count (h : Indexed sh base bs) :
    indexCount (indexPayload sh base bs) indexId (indexPayload sh base bs).length 0 0 = .ok bs.length := by
  have hlen := length_le_indexFrom base bs
  have hsz := h.fits
  have hmin := sh.assertMin
  have hend : bodyEnd sh = sh.BLOCK - 4 := rfl
  have hpayload : (indexPayload sh base bs).length = bodyEnd sh := by
    simp [indexPayload]
    omega
  have := indexCount_spec indexId [] base (bodyEnd sh - (indexFrom base bs).length)
    (indexPayload sh base bs).length 0 h.block h.ids (by omega)
  simpa [indexPayload] using this

/-- Entries of an earlier block come before those of a later one. -/
theorem key_le (h : Indexed sh base bs) {i j : Nat} {b c : List SstEntry} (hij : i < j) (hi : bs[i]? = some b)
    (hj : bs[j]? = some c) : ∀ x ∈ b, ∀ y ∈ c, x.key ≤ y.key := by
  have hs := h.sorted
  rw [← List.take_append_drop j bs, List.flatten_append, List.pairwise_append] at hs
  intro x hx y hy
  refine hs.2.2 x ?_ y ?_
  · exact List.mem_flatten.mpr ⟨b, List.mem_of_getElem? ((List.getElem?_take_of_lt hij).trans hi), hx⟩
  · exact List.mem_flatten.mpr ⟨c, List.mem_of_getElem? (i := 0) (by simpa using hj), hy⟩

theorem block_sorted (h : Indexed sh base bs) {b : List SstEntry} (hb : b ∈ bs) : b.Pairwise fun x y => x.key ≤ y.key :=
  h.sorted.sublist (List.sublist_flatten_of_mem hb)

/-- Blocks come in the order of their first keys. -/
theorem firstKey_mono (h : Indexed sh base bs) {i j : Nat} {b c : List SstEntry} (hij : i ≤ j) (hi : bs[i]? = some b)
    (hj : bs[j]? = some c) : firstKeyOf b ≤ firstKeyOf c := by
  obtain ⟨x, hx, -, hbx⟩ := firstKeyOf_mem (h.block b (List.mem_of_getElem? hi)).ne_nil
  obtain ⟨y, hy, -, hcy⟩ := firstKeyOf_mem (h.block c (List.mem_of_getElem? hj)).ne_nil
  rcases Nat.lt_or_eq_of_le hij with hlt | rfl
  · rw [hbx, hcy]
    exact h.key_le hlt hi hj x hx y hy
  · rw [Option.some.inj (hi.symm.trans hj)]

/-- The first key of a block is its least. -/
theorem firstKey_le (h : Indexed sh base bs) {b : List SstEntry} (hb : b ∈ bs) : ∀ x ∈ b, firstKeyOf b ≤ x.key := by
  obtain ⟨e, -, hhead, hkey⟩ := firstKeyOf_mem (h.block b hb).ne_nil
  intro x hx
  rw [hkey]
  exact key_le_of_drop (h.block_sorted hb) (i := 0) (by rw [← hhead, List.head?_eq_getElem?]) x (by simpa using hx)

/-- Before a block that starts below `key`, all keys are below `key`. -/
theorem lt_of_before (h : Indexed sh base bs) {key : Bytes} {pos : Nat} (hpos : pos < bs.length)
    (hbelow : pos = 0 ∨ ∀ b, bs[pos]? = some b → firstKeyOf b < key) : ∀ e ∈ (bs.take pos).flatten, e.key < key := by
  intro e he
  obtain ⟨b, hb, heb⟩ := List.mem_flatten.mp he
  obtain ⟨i, hi⟩ := List.getElem?_of_mem hb
  have hilt : i < pos := by
    have := (List.getElem?_eq_some_iff.mp hi).1
    rw [List.length_take] at this
    omega
  rw [List.getElem?_take_of_lt hilt] at hi
  rcases hbelow with rfl | hbelow
  · omega
  · obtain ⟨y, hy, -, hkey⟩ := firstKeyOf_mem (h.block bs[pos] (List.getElem_mem hpos)).ne_nil
    have hlt := hbelow bs[pos] (List.getElem?_eq_getElem hpos)
    rw [hkey] at hlt
    exact lt_of_le_of_lt (h.key_le hilt hi (List.getElem?_eq_getElem hpos) e heb y hy) hlt

/-- The number `m` of blocks that start at or below `key`. -/
theorem upperBound (h : Indexed sh base bs) (key : Bytes) (indexId : Nat) : ∃ m ≤ bs.length,
    (∀ i b, bs[i]? = some b → (firstKeyOf b ≤ key ↔ i < m)) ∧
      indexUpperBound (indexPayload sh base bs) key indexId = .ok (if m = 0 then none else some (m, bs.length)) := by
  have hmono : ∀ i j, i ≤ j → j < bs.length → (bs[j]?.any (firstKeyOf · ≤ key)) = true →
      (bs[i]?.any (firstKeyOf · ≤ key)) = true := by
    intro i j hij hj hle
    have hi : i < bs.length := by omega
    rw [List.getElem?_eq_getElem hj] at hle
    rw [List.getElem?_eq_getElem hi]
    have hlej : firstKeyOf bs[j] ≤ key := of_decide_eq_true hle
    exact decide_eq_true ((h.firstKey_mono hij (List.getElem?_eq_getElem hi) (List.getElem?_eq_getElem hj)).trans hlej)
  obtain ⟨m, hm, hsplit⟩ := Search.exists_threshold hmono
  have hbelow : ∀ i < bs.length, (do
      let entry ← orCorrupt indexId (indexEntryAt (indexPayload sh base bs) i)
      return decide (entry.1 ≤ key) : Except Error Bool) = .ok (decide (i < m)) := by
    intro i hi
    obtain ⟨next, hentry⟩ := h.entryAt (List.getElem?_eq_getElem hi)
    rw [hentry, ← hsplit i hi, List.getElem?_eq_getElem hi]
    rfl
  refine ⟨m, hm, fun i b hi => ?_, ?_⟩
  · have hlt := (List.getElem?_eq_some_iff.mp hi).1
    have := hsplit i hlt
    rw [hi] at this
    simpa using this
  · unfold indexUpperBound
    rw [h.count]
    show (Search.lowerBound _ _ _ _ >>= _) = _
    rw [Search.lowerBound_spec hbelow _ _ _ (by omega) (by omega) hm (Nat.le_refl _)]
    rfl

theorem walkBack (h : Indexed sh base bs) (key : Bytes) (indexId : Nat) {n : Nat} (hn : n < bs.length) :
    ∃ pos ≤ n, indexWalkBack (indexPayload sh base bs) key indexId n = .ok pos ∧
      (pos = 0 ∨ ∀ b, bs[pos]? = some b → firstKeyOf b ≠ key) := by
  induction n with
  | zero => exact ⟨0, le_rfl, rfl, Or.inl rfl⟩
  | succ n ih =>
    obtain ⟨next, hentry⟩ := h.entryAt (List.getElem?_eq_getElem hn)
    rw [indexWalkBack, hentry]
    show ∃ pos ≤ n + 1, (if firstKeyOf bs[n + 1] ≠ key then _ else _) = _ ∧ _
    split
    · rename_i hne
      refine ⟨n + 1, le_rfl, rfl, Or.inr fun b hb => ?_⟩
      rw [List.getElem?_eq_getElem hn] at hb
      rwa [← Option.some.inj hb]
    · obtain ⟨pos, hpos, hrun, hstop⟩ := ih (by omega)
      exact ⟨pos, by omega, hrun, hstop⟩

/-- The index leads to the last block that starts below `key`, or to the first one; to none when all start above. -/
theorem lookup (h : Indexed sh base bs) (key : Bytes) (indexId : Nat) :
    (indexLookup (indexPayload sh base bs) key indexId = .ok none ∧ ∀ b ∈ bs, key < firstKeyOf b) ∨
      ∃ pos < bs.length, indexLookup (indexPayload sh base bs) key indexId = .ok (some (base + pos, bs.length - pos)) ∧
        (pos = 0 ∨ ∀ b, bs[pos]? = some b → firstKeyOf b < key) := by
  obtain ⟨m, hm, hsplit, hupper⟩ := h.upperBound key indexId
  unfold indexLookup
  rw [hupper]
  by_cases hm0 : m = 0
  · left
    rw [if_pos hm0]
    refine ⟨rfl, fun b hb => ?_⟩
    obtain ⟨i, hi⟩ := List.getElem?_of_mem hb
    refine not_le.mp fun hle => ?_
    have := (hsplit i b hi).mp hle
    omega
  · right
    rw [if_neg hm0]
    obtain ⟨pos, hpos, hrun, hstop⟩ := h.walkBack key indexId (by omega : m - 1 < bs.length)
    have hlt : pos < bs.length := by omega
    obtain ⟨next, hentry⟩ := h.entryAt (List.getElem?_eq_getElem hlt)
    refine ⟨pos, hlt, ?_, hstop.imp_right fun hne b hb => ?_⟩
    · show (indexWalkBack _ _ _ (m - 1) >>= _) = _
      rw [hrun]
      show (orCorrupt indexId (indexEntryAt _ pos) >>= _) = _
      rw [hentry]
      rfl
    · exact lt_of_le_of_ne ((hsplit pos b hb).mpr (by omega)) (hne b hb)

end Indexed

end Index

/-! ### The bloom filter -/

section Bloom

/-- Whether bit `p` of the filter is set, as a probe tests it. -/
def bitSet (bloom : Bytes) (p : Nat) : Prop := (bloom.getD (p / 8) 0) >>> UInt8.ofNat (p % 8) &&& 1 = 1

private theorem and_one_iff (z : UInt8) : z &&& 1 = 1 ↔ z.toNat.testBit 0 = true := by
  rw [← UInt8.toNat_inj, UInt8.toNat_and, UInt8.toNat_one, Nat.and_one_is_mod, Nat.testBit_zero, decide_eq_true_iff]

private theorem or_and_one {x y : UInt8} (h : x &&& 1 = 1 ∨ y &&& 1 = 1) : (x ||| y) &&& 1 = 1 := by
  rw [and_one_iff, and_one_iff] at h
  rw [and_one_iff, UInt8.toNat_or, Nat.testBit_or, Bool.or_eq_true]
  exact h

private theorem one_shift : ∀ i < 8, ((1 : UInt8) <<< UInt8.ofNat i) >>> UInt8.ofNat i &&& 1 = 1 := by decide

@[simp] theorem length_setBit (bloom : Bytes) (p : Nat) : (setBit bloom p).length = bloom.length := by simp [setBit]

theorem bitSet_setBit_self {bloom : Bytes} {p : Nat} (h : p < bloom.length * 8) : bitSet (setBit bloom p) p := by
  have hi : p / 8 < bloom.length := by omega
  unfold bitSet setBit
  rw [List.getD_eq_getElem?_getD, List.getElem?_modify_eq, List.getElem?_eq_getElem hi]
  simp only [Option.map_eq_map, Option.map_some, Option.getD_some, UInt8.shiftRight_or]
  exact or_and_one (Or.inr (one_shift _ (Nat.mod_lt _ (by omega))))

theorem bitSet_setBit {bloom : Bytes} {p q : Nat} (h : bitSet bloom q) : bitSet (setBit bloom p) q := by
  unfold bitSet setBit at *
  rw [List.getD_eq_getElem?_getD] at h ⊢
  by_cases hpq : p / 8 = q / 8
  · rw [hpq, List.getElem?_modify_eq]
    cases hget : bloom[q / 8]? with
    | none =>
      rw [hget] at h
      simp at h
    | some x =>
      rw [hget] at h
      simp only [Option.map_eq_map, Option.map_some, Option.getD_some, UInt8.shiftRight_or] at h ⊢
      exact or_and_one (Or.inl h)
  · rw [List.getElem?_modify_ne _ _ hpq]
    exact h

private theorem bitSet_foldl (ps : List Nat) (bloom : Bytes) (hps : ∀ p ∈ ps, p < bloom.length * 8) :
    (∀ q, bitSet bloom q → bitSet (ps.foldl setBit bloom) q) ∧ (∀ p ∈ ps, bitSet (ps.foldl setBit bloom) p) ∧
      (ps.foldl setBit bloom).length = bloom.length := by
  induction ps generalizing bloom with
  | nil => exact ⟨fun _ h => h, by simp, rfl⟩
  | cons p ps ih =>
    obtain ⟨hkeep, hset, hlen⟩ := ih (setBit bloom p) fun q hq => by
      rw [length_setBit]
      exact hps q (by simp [hq])
    refine ⟨fun q hq => hkeep q (bitSet_setBit hq), fun q hq => ?_, by rw [List.foldl_cons, hlen, length_setBit]⟩
    rcases List.mem_cons.mp hq with rfl | hq
    · exact hkeep q (bitSet_setBit_self (hps q (by simp)))
    · exact hset q hq

theorem mem_probePositions_lt {key : Bytes} {k bits p : Nat} (hbits : 0 < bits) (h : p ∈ probePositions key k bits) :
    p < bits := by
  obtain ⟨i, -, rfl⟩ := List.mem_map.mp h
  exact Nat.mod_lt _ hbits

theorem bloomMaybeContains_iff {bloom key : Bytes} {k : Nat} (h : bloom.length ≠ 0) :
    bloomMaybeContains bloom key k = true ↔ ∀ p ∈ probePositions key k (bloom.length * 8), bitSet bloom p := by
  unfold bloomMaybeContains
  rw [if_neg (by omega), List.all_eq_true]
  simp only [decide_eq_true_iff, bitSet]

theorem length_bloomAdd (bloom key : Bytes) (k : Nat) : (bloomAdd bloom key k).length = bloom.length := by
  unfold bloomAdd
  split
  · rfl
  · rename_i h
    exact (bitSet_foldl _ _ fun p hp => mem_probePositions_lt (by omega) hp).2.2

/-- Adding a key keeps the bits of the others. -/
theorem bloomMaybeContains_add {bloom key key' : Bytes} {k : Nat} (hne : bloom.length ≠ 0)
    (h : key' = key ∨ bloomMaybeContains bloom key' k = true) : bloomMaybeContains (bloomAdd bloom key k) key' k = true := by
  have hlen := length_bloomAdd bloom key k
  obtain ⟨hkeep, hset, -⟩ := bitSet_foldl (probePositions key k (bloom.length * 8)) bloom
    fun p hp => mem_probePositions_lt (by omega) hp
  rw [bloomMaybeContains_iff (by omega), hlen]
  unfold bloomAdd
  rw [if_neg (by omega)]
  rcases h with rfl | h
  · exact hset
  · rw [bloomMaybeContains_iff hne] at h
    exact fun p hp => hkeep p (h p hp)

/-- The filter of the keys of a table. -/
def bloomOf (sh : Shape) (k : Nat) (es : List SstEntry) : Bytes :=
  es.foldl (fun bloom e => bloomAdd bloom e.key k) (Bytes.zeros sh.BLOOM_BYTES)

theorem bloomOf_concat (k : Nat) (es : List SstEntry) (e : SstEntry) :
    bloomOf sh k (es ++ [e]) = bloomAdd (bloomOf sh k es) e.key k := by rw [bloomOf, List.foldl_append]; rfl

theorem length_bloomOf (k : Nat) (es : List SstEntry) : (bloomOf sh k es).length = sh.BLOOM_BYTES := by
  induction es using List.reverseRecOn with
  | nil => simp [bloomOf]
  | append_singleton es e ih => rw [bloomOf_concat, length_bloomAdd, ih]

/-- The filter has no false negatives. -/
theorem bloomMaybeContains_of_mem {k : Nat} {es : List SstEntry} {e : SstEntry} (h : e ∈ es) :
    bloomMaybeContains (bloomOf sh k es) e.key k = true := by
  have hpos := sh.assertBloom.1
  induction es using List.reverseRecOn with
  | nil => simp at h
  | append_singleton es x ih =>
    rw [bloomOf_concat]
    refine bloomMaybeContains_add (by rw [length_bloomOf]; omega) ?_
    rcases List.mem_append.mp h with h | h
    · exact Or.inr (ih h)
    · exact Or.inl (by rw [List.mem_singleton.mp h])

end Bloom

/-! ### The whole table -/

/-- A table with data blocks `bs` at `base`; `rdelBlocks` blocks lie between them and the bloom filter. -/
structure TableOn (sh : Shape) (blocks : Nat → Bytes) (base k : Nat) (bs : List (List SstEntry))
    (rdelBlocks minSeq : Nat) : Prop where
  block : ∀ b ∈ bs, BlockOk sh b
  ids : base + bs.length + rdelBlocks + 2 ≤ U64_MAX
  fits : (indexFrom base bs).length ≤ bodyEnd sh
  data : ∀ i b, bs[i]? = some b → Holds sh (blocks (base + i)) b
  bloom : blocks (base + bs.length + rdelBlocks) = sealPlain sh (bloomOf sh k bs.flatten)
  index : blocks (base + bs.length + rdelBlocks + 1) = sealPlain sh (indexFrom base bs)
  footer : blocks (base + bs.length + rdelBlocks + 2) = sealPlain sh (TableWriter.footer (base + bs.length + rdelBlocks + 1)
    (base + bs.length + rdelBlocks) bs.flatten.length k rdelBlocks minSeq)

/-- The answer for an entry. -/
def found (e : SstEntry) (valBuf : Nat) : Except Error Lookup :=
  if e.tombstone then .ok (.tombstone e.seq)
  else if e.val.length > valBuf then .error (.bufferTooSmall e.val.length)
  else .ok (.value e.val e.seq e.expireAt)

/-- What a table with the entries `es` answers. -/
def tableAnswer (es : List SstEntry) (key : Bytes) (valBuf maxSeq : Nat) : Except Error Lookup :=
  match visible es key maxSeq with
  | some e => found e valBuf
  | none => .ok .missing

theorem tableAnswer_some {es : List SstEntry} {key : Bytes} {valBuf maxSeq : Nat} {e : SstEntry}
    (h : visible es key maxSeq = some e) : tableAnswer es key valBuf maxSeq = found e valBuf := by rw [tableAnswer, h]

theorem tableAnswer_none {es : List SstEntry} {key : Bytes} {valBuf maxSeq : Nat} (h : visible es key maxSeq = none) :
    tableAnswer es key valBuf maxSeq = .ok .missing := by rw [tableAnswer, h]

theorem observe_parsed (e : SstEntry) (valBuf : Nat) : observe (parsed e) valBuf =
    (found e valBuf).map fun
      | .value val seq expireAt => .hit (.value val seq expireAt)
      | .tombstone seq => .hit (.tombstone seq)
      | .missing => .absent := by
  unfold observe found parsed entryOp wireVal hasTtl
  cases ht : e.tombstone with
  | true => simp [Except.map]
  | false =>
    by_cases hexp : e.expireAt = 0 <;> by_cases hlen : e.val.length > valBuf <;> simp [hexp, hlen, Except.map]

end Sstable

namespace TableReader

open Sstable

variable {sh : Shape} {blocks : Nat → Bytes} {base k : Nat} {bs : List (List SstEntry)} {rdelBlocks minSeq : Nat}

/-- What the walk makes of the answer of one block; `rest` goes on with the next block. -/
def afterBlock (rest : Except Error Sstable.Lookup) : BlockOutcome → Except Error Sstable.Lookup
  | .hit (.value val seq expireAt) => .ok (.value val seq expireAt)
  | .hit (.tombstone seq) => .ok (.tombstone seq)
  | .absent => .ok .missing
  | .truncated => rest

theorem eval_walkBlocks {key : Bytes} {valBuf maxSeq id more : Nat} {b : List SstEntry} (hb : BlockOk sh b)
    (hs : b.Pairwise fun x y => x.key ≤ y.key) (hdata : Holds sh (blocks id) b) :
    (walkBlocks sh key valBuf maxSeq more id).eval blocks = (blockAnswer b key valBuf maxSeq).bind (afterBlock (match more with
      | 0 => .ok .missing
      | more + 1 =>
        if id + 1 > U64_MAX then .error (.corruptBlock id)
        else (walkBlocks sh key valBuf maxSeq more (id + 1)).eval blocks)) := by
  conv_lhs => unfold walkBlocks
  rw [Reads.eval_bind, hdata.readDataBlock hb, Except.bind, Reads.eval_bind, Reads.eval_ofExcept, dataLookup_spec hb hs]
  congr 1
  funext o
  rcases o with (⟨val, seq, expireAt⟩ | seq) | _ | _
  · rfl
  · rfl
  · rfl
  · cases more with
    | zero => rfl
    | succ more =>
      show (if id + 1 > U64_MAX then _ else _ : Reads Error Sstable.Lookup).eval blocks = if id + 1 > U64_MAX then _ else _
      split <;> rfl

/-- A block that holds the entry observed ends the walk. -/
theorem bind_observe (e : SstEntry) (valBuf : Nat) (rest : Except Error Sstable.Lookup) :
    (observe (parsed e) valBuf).bind (afterBlock rest) = found e valBuf := by
  rw [observe_parsed]
  unfold found
  split
  · rfl
  · split <;> rfl

/-- The walk over the blocks `b :: l` from `id` on. -/
theorem walkBlocks_spec (key : Bytes) (valBuf maxSeq : Nat) {id : Nat} {b : List SstEntry} {l : List (List SstEntry)}
    (hok : ∀ x ∈ b :: l, BlockOk sh x) (hs : (b :: l).flatten.Pairwise fun x y => x.key ≤ y.key)
    (hid : id + l.length ≤ U64_MAX) (hdata : ∀ i x, (b :: l)[i]? = some x → Holds sh (blocks (id + i)) x) :
    (walkBlocks sh key valBuf maxSeq l.length id).eval blocks = tableAnswer (b :: l).flatten key valBuf maxSeq := by
  have hfirst : Holds sh (blocks id) b := hdata 0 b rfl
  induction l generalizing b id with
  | nil =>
    rw [List.flatten_singleton] at hs ⊢
    rw [eval_walkBlocks (hok b (by simp)) hs hfirst]
    unfold blockAnswer tableAnswer
    cases visible b key maxSeq with
    | some e => exact bind_observe e valBuf _
    | none =>
      dsimp only
      split <;> rfl
  | cons c l ih =>
    have hb : b.Pairwise fun x y => x.key ≤ y.key := hs.sublist (List.sublist_flatten_of_mem (by simp))
    rw [List.flatten_cons, List.pairwise_append] at hs
    rw [List.length_cons] at hid
    have hnext : ∀ i x, (c :: l)[i]? = some x → Holds sh (blocks (id + 1 + i)) x := by
      intro i x hx
      rw [show id + 1 + i = id + (i + 1) by omega]
      exact hdata (i + 1) x hx
    have hrest := ih (fun x hx => hok x (by simp [hx])) hs.2.1 (by omega : id + 1 + l.length ≤ U64_MAX) hnext
      (hnext 0 c rfl)
    rw [eval_walkBlocks (hok b (by simp)) hb hfirst, List.length_cons]
    dsimp only
    rw [if_neg (by omega), hrest]
    unfold blockAnswer
    have hvis : visible (b :: c :: l).flatten key maxSeq =
        (visible b key maxSeq).or (visible (c :: l).flatten key maxSeq) := by
      rw [List.flatten_cons, visible, List.find?_append]
      rfl
    cases hv : visible b key maxSeq with
    | some e =>
      rw [hv, Option.some_or] at hvis
      rw [tableAnswer_some hvis]
      exact bind_observe e valBuf _
    | none =>
      rw [hv, Option.none_or] at hvis
      dsimp only
      split
      · -- A larger key was seen: the later blocks hold larger keys only.
        rename_i hany
        obtain ⟨x, hx, hlt⟩ := List.any_eq_true.mp hany
        have hnone : visible (c :: l).flatten key maxSeq = none := visible_eq_none fun y hy =>
          (ne_of_lt (lt_of_lt_of_le (of_decide_eq_true hlt) (hs.2.2 x hx y hy))).symm
        rw [tableAnswer_none (hvis.trans hnone)]
        rfl
      · unfold tableAnswer
        rw [hvis]
        rfl

/-- The last blocks of a table, read back. -/
theorem checkBlockCrc_sealPlain {payload : Bytes} (h : payload.length ≤ bodyEnd sh) (id : Nat) :
    checkBlockCrc sh (sealPlain sh payload) id = .ok () :=
  checkBlockCrc_withCrc (length_sealPlain h) id

theorem take_sealPlain {payload : Bytes} {n : Nat} (h : payload.length = n) : (sealPlain sh payload).take n = payload := by
  rw [sealPlain, withCrc, List.append_assoc, List.take_left' h]

theorem field_of_slice {scratch f : Bytes} {off len : Nat} (h : Bytes.slice scratch off len = some f) :
    field scratch off len = Bytes.leNat f := by
  rw [field, (Bytes.slice_eq_some h).2]

/-- The footer block passes its check and has the fields one behind the other. -/
theorem footer_fields (h : TableOn sh blocks base k bs rdelBlocks minSeq) :
    checkBlockCrc sh (blocks (base + bs.length + rdelBlocks + 2)) (base + bs.length + rdelBlocks + 2) = .ok () ∧
      ∃ tail, blocks (base + bs.length + rdelBlocks + 2) = [Bytes.leBytes 8 SSTABLE_MAGIC,
        Bytes.leBytes 8 (base + bs.length + rdelBlocks + 1), Bytes.leBytes 8 (base + bs.length + rdelBlocks),
        Bytes.leBytes 8 bs.flatten.length, Bytes.leBytes 1 k, Bytes.leBytes 4 rdelBlocks,
        Bytes.leBytes 8 minSeq].flatten ++ tail := by
  have hmin := sh.assertMin
  have hend : bodyEnd sh = sh.BLOCK - 4 := rfl
  rw [h.footer]
  constructor
  · apply checkBlockCrc_sealPlain
    simp [TableWriter.footer]
    omega
  · rw [sealPlain, withCrc, List.append_assoc]
    exact ⟨_, by simp [TableWriter.footer]; rfl⟩

/-- The magic and the index block of a footer. -/
theorem footer_index (h : TableOn sh blocks base k bs rdelBlocks minSeq) :
    field (blocks (base + bs.length + rdelBlocks + 2)) 0 8 = SSTABLE_MAGIC ∧
      field (blocks (base + bs.length + rdelBlocks + 2)) 8 8 = base + bs.length + rdelBlocks + 1 := by
  have hids := h.ids
  obtain ⟨-, tail, hfields⟩ := footer_fields h
  rw [hfields]
  constructor
  · exact (field_of_slice (Bytes.slice_field _ 0 rfl rfl (by simp))).trans (leNat_eight (by decide))
  · exact (field_of_slice (Bytes.slice_field _ 1 rfl (by simp) (by simp))).trans (leNat_eight (by omega))

theorem open_spec (h : TableOn sh blocks base k bs rdelBlocks minSeq) (hk : 0 < k ∧ k < 256) (hr : rdelBlocks ≤ U32_MAX)
    (hm : minSeq ≤ U64_MAX) : ∃ r, (open_ sh (base + bs.length + rdelBlocks + 2)).eval blocks = .ok r ∧
      r.indexBlock = base + bs.length + rdelBlocks + 1 ∧ r.bloomBlock = base + bs.length + rdelBlocks ∧ r.k = k ∧
      r.rdelFirst = base + bs.length ∧ r.rdelBlocks = rdelBlocks ∧ r.minSeq = minSeq := by
  have hids := h.ids
  obtain ⟨hcrc, tail, hfields⟩ := footer_fields h
  obtain ⟨hmagic, hindex⟩ := footer_index h
  obtain ⟨bloomId, hbloom⟩ : ∃ n, n = base + bs.length + rdelBlocks := ⟨_, rfl⟩
  rw [← hbloom] at hids hcrc hfields hmagic hindex ⊢
  obtain ⟨scratch, hscratch⟩ : ∃ s, s = blocks (bloomId + 2) := ⟨_, rfl⟩
  rw [← hscratch] at hcrc hfields hmagic hindex
  have hbl : field scratch 16 8 = bloomId := by
    rw [hfields]
    exact (field_of_slice (Bytes.slice_field _ 2 rfl (by simp) (by simp))).trans (leNat_eight (by omega))
  have hkf : field scratch 32 1 = k := by
    rw [hfields]
    exact (field_of_slice (Bytes.slice_field _ 4 rfl (by simp) (by simp))).trans
      (Bytes.leNat_leBytes_of_lt (by omega))
  have hrf : field scratch 33 4 = rdelBlocks := by
    rw [hfields]
    exact (field_of_slice (Bytes.slice_field _ 5 rfl (by simp) (by simp))).trans
      (Bytes.leNat_leBytes_of_lt (lt_of_le_of_lt hr (by decide)))
  have hmf : field scratch 37 8 = minSeq := by
    rw [hfields]
    exact (field_of_slice (Bytes.slice_field _ 6 rfl (by simp) (by simp))).trans (leNat_eight hm)
  refine ⟨⟨bloomId + 1, bloomId, field scratch 24 8, k, bloomId - rdelBlocks, rdelBlocks, minSeq⟩, ?_, rfl, rfl, rfl, ?_, rfl,
    rfl⟩
  · rw [open_, Reads.eval_bind, Reads.eval_block, Except.bind, Reads.eval_bind, Reads.eval_ofExcept, ← hscratch, hcrc,
      Except.bind, hmagic, hkf, hbl, hrf, hindex, hmf, if_neg (by simp), if_neg (by omega), if_neg (by omega)]
    rfl
  · show bloomId - rdelBlocks = base + bs.length
    omega

/-- A lookup gives the newest version that the read may observe. -/
theorem lookupAt_spec (h : TableOn sh blocks base k bs rdelBlocks minSeq)
    (hs : bs.flatten.Pairwise fun x y => x.key ≤ y.key) {r : TableReader}
    (hindex : r.indexBlock = base + bs.length + rdelBlocks + 1) (hbloom : r.bloomBlock = base + bs.length + rdelBlocks)
    (hk : r.k = k) (key : Bytes) (valBuf maxSeq : Nat) :
    (r.lookupAt sh key valBuf maxSeq).eval blocks = tableAnswer bs.flatten key valBuf maxSeq := by
  have hids := h.ids
  have hidx : Indexed sh base bs := ⟨h.block, hs, by omega, h.fits⟩
  have hblen : (bloomOf sh k bs.flatten).length = sh.BLOOM_BYTES := length_bloomOf k bs.flatten
  have hbtake : (blocks r.bloomBlock).take sh.BLOOM_BYTES = bloomOf sh k bs.flatten := by
    rw [hbloom, h.bloom, take_sealPlain hblen]
  have hitake : (blocks r.indexBlock).take (bodyEnd sh) = indexPayload sh base bs := by
    rw [hindex, h.index, sealPlain, take_withCrc (length_sealPlain h.fits)]
    rfl
  have hicrc : checkBlockCrc sh (blocks r.indexBlock) r.indexBlock = .ok () := by
    rw [hindex, h.index]
    exact checkBlockCrc_sealPlain h.fits _
  rw [lookupAt, Reads.eval_bind, Reads.eval_block, Except.bind, hbtake, hk]
  split
  · -- The filter rules the key out.
    rename_i hgate
    have hno : bloomMaybeContains (bloomOf sh k bs.flatten) key k = false := by
      simp only [Bool.and_eq_true, Bool.not_eq_true'] at hgate
      exact hgate.2
    rw [tableAnswer_none (visible_eq_none fun e he heq => ?_)]
    · rfl
    · rw [← heq, bloomMaybeContains_of_mem he] at hno
      cases hno
  · rw [Reads.eval_bind, Reads.eval_block, Except.bind, Reads.eval_bind, Reads.eval_ofExcept, hicrc, Except.bind,
      Reads.eval_bind, Reads.eval_ofExcept, hitake]
    rcases hidx.lookup key r.indexBlock with ⟨hnone, habove⟩ | ⟨pos, hpos, hsome, hbelow⟩
    · rw [hnone, tableAnswer_none (visible_eq_none fun e he => ?_)]
      · rfl
      · obtain ⟨b, hb, heb⟩ := List.mem_flatten.mp he
        exact (ne_of_lt (lt_of_lt_of_le (habove b hb) (hidx.firstKey_le hb e heb))).symm
    · rw [hsome]
      show (walkBlocks sh key valBuf maxSeq (bs.length - pos - 1) (base + pos)).eval blocks = _
      have hdrop : bs.drop pos = bs[pos] :: bs.drop (pos + 1) := List.drop_eq_getElem_cons hpos
      have hlen : bs.length - pos - 1 = (bs.drop (pos + 1)).length := by
        rw [List.length_drop]
        omega
      have hsplit : bs.flatten = (bs.take pos).flatten ++ (bs[pos] :: bs.drop (pos + 1)).flatten := by
        rw [← hdrop, ← List.flatten_append, List.take_append_drop]
      have hblocks : ∀ i x, (bs[pos] :: bs.drop (pos + 1))[i]? = some x → Holds sh (blocks (base + pos + i)) x := by
        intro i x hx
        rw [← hdrop, List.getElem?_drop] at hx
        rw [Nat.add_assoc]
        exact h.data _ _ hx
      have hsorted : (bs[pos] :: bs.drop (pos + 1)).flatten.Pairwise fun x y => x.key ≤ y.key := by
        rw [hsplit, List.pairwise_append] at hs
        exact hs.2.1
      have hwalk := walkBlocks_spec key valBuf maxSeq (fun x hx => h.block x (List.mem_of_mem_drop (hdrop ▸ hx))) hsorted
        (by rw [List.length_drop]; omega) hblocks
      rw [hlen, hwalk, hsplit]
      unfold tableAnswer
      rw [visible_append_of_ne fun e he => ne_of_lt (hidx.lt_of_before hpos hbelow e he)]

end TableReader

end Horton
