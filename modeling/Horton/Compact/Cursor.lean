import Horton.Manifest.Basic
import Horton.Sstable.Lookup

/-!
# Cursors

The read cursor of `compact.rs` over one table's data blocks, and the entry stream that drives it.  A cursor starts at
the first entry at or above the first key of the table ref, which a compaction may have raised.

`Remaining` says which entries a cursor still has to yield; a step takes the first of them away (`advance_spec`), and a
fresh cursor has all entries from the first key on (`init_spec`).
-/

namespace Horton

open BlockDev

namespace TableRef

/-- The number of data blocks; `none` for a malformed ref. -/
def dataBlocks (t : TableRef) : Option Nat := if t.blockCount < t.rdelBlocks + 3 then none else some (t.blockCount - t.rdelBlocks - 3)

def dataFirst (t : TableRef) : Nat := t.firstBlock

/-- The last block of the table. -/
def footerBlock (t : TableRef) : Option Nat :=
  if t.firstBlock + t.blockCount > U64_MAX ∨ t.firstBlock + t.blockCount = 0 then none
  else some (t.firstBlock + t.blockCount - 1)

end TableRef

namespace Sstable

variable (sh : Shape)

/-- The offset where the entries of a data block end: the start of the restart trailer. -/
def dataEntriesEnd (body : Bytes) (id : Nat) : Except Error Nat :=
  let rcount := Bytes.leNat ((body.drop (bodyEnd sh - 2)).take 2)
  if bodyEnd sh < 2 + rcount * 2 then .error (.corruptBlock id) else .ok (bodyEnd sh - (2 + rcount * 2))

/-- The entry at `off` of a block whose entries end at `stop`; a tombstone has no value. -/
def parseDataEntry (body : Bytes) (off stop id : Nat) : Except Error (SstEntry × Nat) :=
  if off ≥ stop then .error (.corruptBlock id)
  else do
    let (entry, next) ← orCorrupt id (dataEntryParse (body.take stop) off)
    let tombstone := decide (entry.op = .delete)
    return (⟨entry.key, if tombstone then [] else entry.val, entry.seq, tombstone, entry.expireAt⟩, next)

/-- The index block that a footer points to. -/
def footerIndexBlock (footerBlock : Nat) : Reads Error Nat := do
  let scratch ← Reads.block footerBlock
  Reads.ofExcept (checkBlockCrc sh scratch footerBlock)
  if TableReader.field scratch 0 8 ≠ SSTABLE_MAGIC then .fail (.corruptBlock footerBlock)
  else return TableReader.field scratch 8 8

end Sstable

/-- A cursor: the logical body of its current block and the entry it is parked on. -/
structure Cursor where
  firstBlock : Nat
  dataBlocks : Nat
  blockIdx : Nat
  blockId : Nat
  block : Bytes
  rstart : Nat
  next : Nat
  live : Bool
  head : SstEntry
  deriving DecidableEq, Repr

namespace Cursor

open Sstable

def EMPTY : Cursor := ⟨0, 0, 0, 0, [], 0, 0, false, ⟨[], [], 0, false, 0⟩⟩

variable (sh : Shape)

/-- Loads data block `idx`. -/
def readDataBlock (cur : Cursor) (idx : Nat) : Reads Error Cursor :=
  let id := cur.firstBlock + idx
  if id > U64_MAX then .fail (.corruptBlock cur.firstBlock)
  else do
    let body ← Sstable.readDataBlock sh id
    let rstart ← Reads.ofExcept (dataEntriesEnd sh body id)
    if rstart = 0 then .fail (.corruptBlock id)
    else return { cur with block := body, blockId := id, blockIdx := idx, rstart := rstart }

/-- Parks the cursor on the entry at `off`; `none` at the padding behind the last entry. -/
def parseHeadAt (cur : Cursor) (off : Nat) : Except Error (Option Cursor) :=
  match parseDataEntry cur.block off cur.rstart cur.blockId with
  | .error _ =>
    if Bytes.allZero ((cur.block.drop off).take (cur.rstart - off)) then .ok none
    else .error (.corruptBlock cur.blockId)
  | .ok (entry, next) =>
    if entry.key.length > sh.KEY_MAX then .error (.keyTooLarge entry.key.length sh.KEY_MAX)
    else if entry.val.length > sh.VAL_MAX then .error (.valueTooLarge entry.val.length sh.VAL_MAX)
    else .ok (some { cur with head := entry, next := next, live := true })

/-- Loads data block `idx` and parks on its first entry, which a written block always has. -/
def firstOf (cur : Cursor) (idx bad : Nat) : Reads Error Cursor := do
  let cur ← cur.readDataBlock sh idx
  match ← Reads.ofExcept (cur.parseHeadAt sh 0) with
  | some cur => return cur
  | none => .fail (.corruptBlock bad)

/-- The next entry of the current block; `none` behind its last. -/
def nextInBlock (cur : Cursor) : Except Error (Option Cursor) :=
  if cur.next < cur.rstart then cur.parseHeadAt sh cur.next else .ok none

/-- Moves past the head entry; `live` says whether there is a next one. -/
def advance (cur : Cursor) : Reads Error Cursor := do
  match ← Reads.ofExcept (cur.nextInBlock sh) with
  | some cur => return cur
  | none =>
    if cur.blockIdx + 1 > U64_MAX then .fail (.corruptBlock cur.blockId)
    else if cur.blockIdx + 1 ≥ cur.dataBlocks then return { cur with live := false }
    else cur.firstOf sh (cur.blockIdx + 1) (cur.firstBlock + (cur.blockIdx + 1))

/-- Skips the entries below `floor`. -/
def skipBelow (floor : Bytes) : Nat → Cursor → Reads Error Cursor
  | 0, cur => pure cur
  | fuel + 1, cur =>
    if cur.live && cur.head.key < floor then do
      let cur ← cur.advance sh
      skipBelow floor fuel cur
    else pure cur

/-- Positions a cursor on the first entry of the table at or above its first key.  A data block of `BLOCK` bytes has
fewer than `BLOCK` entries, so the fuel suffices. -/
def init (tref : TableRef) : Reads Error Cursor :=
  match tref.dataBlocks with
  | none => .fail (.corruptBlock tref.firstBlock)
  | some dataBlocks =>
    let cur := { EMPTY with firstBlock := tref.dataFirst, dataBlocks := dataBlocks }
    if dataBlocks = 0 then pure cur
    else match tref.footerBlock with
      | none => .fail .corruptManifest
      | some footer => do
        let indexId ← footerIndexBlock sh footer
        let index ← Reads.block indexId
        Reads.ofExcept (checkBlockCrc sh index indexId)
        match ← Reads.ofExcept (indexLookup (index.take (bodyEnd sh)) tref.firstKey indexId) with
        | none =>
          let cur ← cur.firstOf sh 0 cur.firstBlock
          skipBelow sh tref.firstKey (dataBlocks * sh.BLOCK) cur
        | some (id, _) =>
          if id < cur.firstBlock ∨ id - cur.firstBlock ≥ dataBlocks then .fail (.corruptBlock indexId)
          else
            let cur ← cur.firstOf sh (id - cur.firstBlock) cur.firstBlock
            skipBelow sh tref.firstKey (dataBlocks * sh.BLOCK) cur

/-- The heads from here to the end of the table. -/
def drain : Nat → Cursor → Reads Error (List SstEntry)
  | 0, _ => pure []
  | fuel + 1, cur =>
    if cur.live then do
      let rest ← cur.advance sh >>= drain fuel
      return cur.head :: rest
    else pure []

end Cursor

/-- All entries of a table, in the order in which an `EntryStream` yields them. -/
def entryStream (sh : Shape) (tref : TableRef) : Reads Error (List SstEntry) := do
  let cur ← Cursor.init sh tref
  cur.drain sh (cur.dataBlocks * sh.BLOCK + 1)

namespace Sstable

/-- An entry as it comes back from a table: a tombstone keeps neither value nor expiry. -/
def stored (e : SstEntry) : SstEntry :=
  { e with val := wireVal e, expireAt := if hasTtl e then e.expireAt else 0 }

theorem stored_eq_self {e : SstEntry} (h : e.tombstone = true → e.val = [] ∧ e.expireAt = 0) : stored e = e := by
  obtain ⟨key, val, seq, tombstone, expireAt⟩ := e
  cases tombstone with
  | true =>
    obtain ⟨rfl, rfl⟩ := h rfl
    rfl
  | false =>
    by_cases hexp : expireAt = 0
    · subst hexp
      rfl
    · simp [stored, wireVal, hasTtl, hexp]

variable {sh : Shape} {b : List SstEntry}

theorem parseDataEntry_spec (hb : BlockOk sh b) {j id : Nat} {e : SstEntry} (hj : b[j]? = some e) :
    parseDataEntry (logicalBody sh b) (offsetOf b j) (rstartOf sh b) id = .ok (stored e, offsetOf b (j + 1)) := by
  have hlt := offsetOf_lt (List.getElem?_eq_some_iff.mp hj).1
  have hle := hb.length_le.1
  unfold parseDataEntry
  rw [if_neg (by omega), hb.entries_take.entry _ _ hj]
  show Except.ok _ = Except.ok _
  congr 1
  unfold parsed stored entryOp
  cases ht : e.tombstone with
  | true => simp [wireVal, ht]
  | false => by_cases hexp : e.expireAt = 0 <;> simp [hasTtl, ht, hexp]

end Sstable

namespace Cursor

open Sstable

variable {sh : Shape} {blocks : Nat → Bytes} {base k : Nat} {bs : List (List SstEntry)} {rdelBlocks minSeq : Nat}
  {cur : Cursor} {b : List SstEntry}

theorem parseHeadAt_entry (hb : BlockOk sh b) (hblock : cur.block = logicalBody sh b) (hr : cur.rstart = rstartOf sh b)
    (hval : ∀ e ∈ b, (wireVal e).length ≤ sh.VAL_MAX) {j : Nat} {e : SstEntry} (hj : b[j]? = some e) :
    cur.parseHeadAt sh (offsetOf b j) =
      .ok (some { cur with head := stored e, next := offsetOf b (j + 1), live := true }) := by
  have hmem := List.mem_of_getElem? hj
  have hkey : ¬ (stored e).key.length > sh.KEY_MAX := not_lt.mpr (hb.encodable e hmem).key_le
  have hval' : ¬ (stored e).val.length > sh.VAL_MAX := not_lt.mpr (hval e hmem)
  unfold parseHeadAt
  rw [hblock, hr, parseDataEntry_spec hb hj]
  dsimp only
  rw [if_neg hkey, if_neg hval']

theorem parseHeadAt_end (hb : BlockOk sh b) (hblock : cur.block = logicalBody sh b) (hr : cur.rstart = rstartOf sh b)
    (hlt : (encodeEntries b).length < rstartOf sh b) : cur.parseHeadAt sh (encodeEntries b).length = .ok none := by
  have hparse : parseDataEntry (logicalBody sh b) (encodeEntries b).length (rstartOf sh b) cur.blockId =
      .error (.corruptBlock cur.blockId) := by
    unfold parseDataEntry
    rw [if_neg (by omega), hb.entries_take.stop hlt]
    rfl
  unfold parseHeadAt
  rw [hblock, hr, hparse]
  dsimp only
  rw [if_pos hb.entries.padding]

/-- The cursor is parked on entry `j` of data block `i`. -/
structure Parked (sh : Shape) (base : Nat) (bs : List (List SstEntry)) (cur : Cursor) (i : Nat) (b : List SstEntry) (j : Nat)
    (e : SstEntry) : Prop where
  firstBlock_eq : cur.firstBlock = base
  dataBlocks_eq : cur.dataBlocks = bs.length
  blockIdx_eq : cur.blockIdx = i
  block_eq : cur.block = logicalBody sh b
  rstart_eq : cur.rstart = rstartOf sh b
  next_eq : cur.next = offsetOf b (j + 1)
  live_eq : cur.live = true
  head_eq : cur.head = stored e
  block : bs[i]? = some b
  entry : b[j]? = some e

/-- The cursor has the entries `l` still to yield, the head among them. -/
def Remaining (sh : Shape) (base : Nat) (bs : List (List SstEntry)) (cur : Cursor) (l : List SstEntry) : Prop :=
  (cur.live = false ∧ l = []) ∨
    ∃ i b j e, Parked sh base bs cur i b j e ∧ l = b.drop j ++ (bs.drop (i + 1)).flatten

theorem dataEntriesEnd_spec (hb : BlockOk sh b) (id : Nat) : dataEntriesEnd sh (logicalBody sh b) id = .ok (rstartOf sh b) := by
  have hr := hb.restarts_le
  have htail := hb.length_le.2
  have hu : U16_MAX = 0xFFFF := rfl
  unfold dataEntriesEnd
  dsimp only
  rw [hb.drop_logicalBody, List.take_of_length_le (by simp), leNat_two (by omega), if_neg (by omega)]
  congr 1
  omega

theorem offsetOf_zero (b : List SstEntry) : offsetOf b 0 = 0 := by simp [offsetOf, encodeEntries]

theorem firstOf_spec (h : TableOn sh blocks base k bs rdelBlocks minSeq)
    (hval : ∀ e ∈ bs.flatten, (wireVal e).length ≤ sh.VAL_MAX) (hfirst : cur.firstBlock = base)
    (hn : cur.dataBlocks = bs.length) (bad : Nat) {i : Nat} (hi : i < bs.length) :
    ∃ cur', (cur.firstOf sh i bad).eval blocks = .ok cur' ∧ cur'.dataBlocks = bs.length ∧
      Remaining sh base bs cur' (bs.drop i).flatten := by
  have hi' := List.getElem?_eq_getElem hi
  have hb := h.block _ (List.getElem_mem hi)
  have hids := h.ids
  obtain ⟨e, he⟩ : ∃ e, bs[i][0]? = some e :=
    ⟨_, List.getElem?_eq_getElem (List.length_pos_iff.mpr hb.ne_nil)⟩
  have hpos := length_le_encodeEntries bs[i]
  have hlen : 0 < bs[i].length := List.length_pos_iff.mpr hb.ne_nil
  have hle := hb.length_le.1
  have hread : (cur.readDataBlock sh i).eval blocks = .ok { cur with
      block := logicalBody sh bs[i], blockId := base + i, blockIdx := i, rstart := rstartOf sh bs[i] } := by
    unfold readDataBlock
    dsimp only
    rw [hfirst, if_neg (by omega), Reads.eval_bind, (h.data i _ hi').readDataBlock hb, Except.bind, Reads.eval_bind,
      Reads.eval_ofExcept, dataEntriesEnd_spec hb, Except.bind, if_neg (by omega)]
    rfl
  have hparse : ∀ c : Cursor, c.block = logicalBody sh bs[i] → c.rstart = rstartOf sh bs[i] → c.parseHeadAt sh 0 =
      .ok (some { c with head := stored e, next := offsetOf bs[i] 1, live := true }) := by
    intro c hc hr
    rw [← offsetOf_zero bs[i]]
    exact parseHeadAt_entry hb hc hr (fun x hx => hval x (List.mem_flatten.mpr ⟨_, List.getElem_mem hi, hx⟩)) he
  refine ⟨{ cur with
      block := logicalBody sh bs[i]
      blockId := base + i
      blockIdx := i
      rstart := rstartOf sh bs[i]
      head := stored e
      next := offsetOf bs[i] 1
      live := true }, ?_, hn,
    Or.inr ⟨i, bs[i], 0, e, ⟨hfirst, hn, rfl, rfl, rfl, rfl, rfl, rfl, hi', he⟩, ?_⟩⟩
  · rw [firstOf, Reads.eval_bind, hread, Except.bind, Reads.eval_bind, Reads.eval_ofExcept, hparse _ rfl rfl]
    rfl
  · rw [List.drop_zero, List.drop_eq_getElem_cons hi, List.flatten_cons]

/-- A step takes the head away. -/
theorem advance_spec (h : TableOn sh blocks base k bs rdelBlocks minSeq)
    (hval : ∀ e ∈ bs.flatten, (wireVal e).length ≤ sh.VAL_MAX) {x : SstEntry} {l : List SstEntry}
    (hrem : Remaining sh base bs cur (x :: l)) :
    cur.live = true ∧ cur.head = stored x ∧ ∃ cur', (cur.advance sh).eval blocks = .ok cur' ∧
      cur'.dataBlocks = cur.dataBlocks ∧ Remaining sh base bs cur' l := by
  obtain ⟨-, hc⟩ | ⟨i, b, j, e, hp, hl⟩ := hrem
  · cases hc
  have hids := h.ids
  have hb := h.block b (List.mem_of_getElem? hp.block)
  have hi := (List.getElem?_eq_some_iff.mp hp.block).1
  have hj := (List.getElem?_eq_some_iff.mp hp.entry).1
  have hvalb : ∀ y ∈ b, (wireVal y).length ≤ sh.VAL_MAX :=
    fun y hy => hval y (List.mem_flatten.mpr ⟨b, List.mem_of_getElem? hp.block, hy⟩)
  rw [drop_eq_cons hp.entry, List.cons_append] at hl
  obtain ⟨rfl, rfl⟩ := List.cons.inj hl
  refine ⟨hp.live_eq, hp.head_eq, ?_⟩
  by_cases hmore : j + 1 < b.length
  · -- another entry in this block
    obtain ⟨e', he'⟩ : ∃ e', b[j + 1]? = some e' := ⟨_, List.getElem?_eq_getElem hmore⟩
    have hlt := offsetOf_lt hmore
    have hle := hb.length_le.1
    have hparse := parseHeadAt_entry hb hp.block_eq hp.rstart_eq hvalb he'
    have hnext : cur.nextInBlock sh =
        .ok (some { cur with head := stored e', next := offsetOf b (j + 1 + 1), live := true }) := by
      rw [nextInBlock, if_pos (by rw [hp.next_eq, hp.rstart_eq]; omega), hp.next_eq, hparse]
    refine ⟨{ cur with head := stored e', next := offsetOf b (j + 1 + 1), live := true }, ?_, rfl,
      Or.inr ⟨i, b, j + 1, e', ⟨hp.firstBlock_eq, hp.dataBlocks_eq, hp.blockIdx_eq, hp.block_eq, hp.rstart_eq, rfl, rfl, rfl,
        hp.block, he'⟩, rfl⟩⟩
    rw [advance, Reads.eval_bind, Reads.eval_ofExcept, hnext]
    rfl
  · have hend : offsetOf b (j + 1) = (encodeEntries b).length := by
      rw [← offsetOf_length]
      congr 1
      omega
    have hnil : b.drop (j + 1) = [] := List.drop_eq_nil_iff.mpr (by omega)
    have hnext : cur.nextInBlock sh = .ok none := by
      rw [nextInBlock, hp.next_eq, hp.rstart_eq, hend]
      split
      · rename_i hlt
        exact parseHeadAt_end hb hp.block_eq hp.rstart_eq hlt
      · rfl
    rw [advance, Reads.eval_bind, Reads.eval_ofExcept, hnext, Except.bind, hnil, List.nil_append]
    have hidx := hp.blockIdx_eq
    have hn := hp.dataBlocks_eq
    dsimp only
    rw [if_neg (by omega)]
    split
    · refine ⟨{ cur with live := false }, rfl, rfl, Or.inl ⟨rfl, ?_⟩⟩
      rw [List.drop_eq_nil_iff.mpr (by omega)]
      rfl
    · rw [hidx, hn]
      exact firstOf_spec h hval hp.firstBlock_eq hn _ (by omega)

theorem live_of_remaining_nil (h : Remaining sh base bs cur []) : cur.live = false := by
  obtain ⟨hl, -⟩ | ⟨i, b, j, e, hp, hl⟩ := h
  · exact hl
  · rw [drop_eq_cons hp.entry] at hl
    cases hl

/-- The entries of a table are fewer than its bytes. -/
theorem length_flatten_le (h : ∀ b ∈ bs, BlockOk sh b) : bs.flatten.length ≤ bs.length * sh.BLOCK := by
  induction bs with
  | nil => simp
  | cons b bs ih =>
    have hb := h b (by simp)
    have hroom := hb.room
    have hlen := length_le_encodeEntries b
    have := ih fun x hx => h x (by simp [hx])
    rw [List.flatten_cons, List.length_append, List.length_cons, Nat.add_mul, Nat.one_mul]
    omega

theorem skipBelow_spec (h : TableOn sh blocks base k bs rdelBlocks minSeq)
    (hval : ∀ e ∈ bs.flatten, (wireVal e).length ≤ sh.VAL_MAX) (floor : Bytes) {fuel : Nat} {l : List SstEntry}
    (hrem : Remaining sh base bs cur l) (hf : l.length ≤ fuel) :
    ∃ cur', (skipBelow sh floor fuel cur).eval blocks = .ok cur' ∧ cur'.dataBlocks = cur.dataBlocks ∧
      Remaining sh base bs cur' (l.dropWhile (·.key < floor)) := by
  induction l generalizing cur fuel with
  | nil =>
    refine ⟨cur, ?_, rfl, hrem⟩
    have hlive := live_of_remaining_nil hrem
    cases fuel with
    | zero => rfl
    | succ fuel =>
      rw [skipBelow, hlive]
      rfl
  | cons x l ih =>
    obtain ⟨fuel, rfl⟩ : ∃ f, fuel = f + 1 := ⟨fuel - 1, by rw [List.length_cons] at hf; omega⟩
    obtain ⟨hlive, hhead, cur₁, hstep, hn, hrem₁⟩ := advance_spec h hval hrem
    have hkey : cur.head.key = x.key := by rw [hhead]; rfl
    rw [skipBelow, hlive, Bool.true_and, hkey]
    by_cases hlt : x.key < floor
    · obtain ⟨cur', hrun, hn', hrem'⟩ := ih hrem₁ (by rw [List.length_cons] at hf; omega : l.length ≤ fuel)
      refine ⟨cur', ?_, hn'.trans hn, ?_⟩
      · rw [if_pos (decide_eq_true hlt), Reads.eval_bind, hstep]
        exact hrun
      · rw [List.dropWhile_cons_of_pos (by simpa using hlt)]
        exact hrem'
    · refine ⟨cur, ?_, rfl, ?_⟩
      · rw [if_neg (by simpa using hlt)]
        rfl
      · rw [List.dropWhile_cons_of_neg (by simpa using hlt)]
        exact hrem

theorem drain_spec (h : TableOn sh blocks base k bs rdelBlocks minSeq)
    (hval : ∀ e ∈ bs.flatten, (wireVal e).length ≤ sh.VAL_MAX) {fuel : Nat} {l : List SstEntry}
    (hrem : Remaining sh base bs cur l) (hf : l.length < fuel) : (drain sh fuel cur).eval blocks = .ok (l.map stored) := by
  induction l generalizing cur fuel with
  | nil =>
    obtain ⟨fuel, rfl⟩ : ∃ f, fuel = f + 1 := ⟨fuel - 1, by omega⟩
    rw [drain, live_of_remaining_nil hrem]
    rfl
  | cons x l ih =>
    rw [List.length_cons] at hf
    obtain ⟨fuel, rfl⟩ : ∃ f, fuel = f + 1 := ⟨fuel - 1, by omega⟩
    obtain ⟨hlive, hhead, cur₁, hstep, -, hrem₁⟩ := advance_spec h hval hrem
    have hrest := ih hrem₁ (by omega : l.length < fuel)
    rw [drain, hlive, if_pos rfl, Reads.eval_bind, Reads.eval_bind, hstep, hhead]
    show ((drain sh fuel cur₁).eval blocks).bind _ = _
    rw [hrest]
    rfl

/-- A table ref that points to the table. -/
structure PointsTo (tref : TableRef) (base : Nat) (bs : List (List SstEntry)) (rdelBlocks : Nat) : Prop where
  firstBlock_eq : tref.firstBlock = base
  blockCount_eq : tref.blockCount = bs.length + rdelBlocks + 3
  rdelBlocks_eq : tref.rdelBlocks = rdelBlocks
  stop_le : base + (bs.length + rdelBlocks + 3) ≤ U64_MAX

theorem footerIndexBlock_spec (h : TableOn sh blocks base k bs rdelBlocks minSeq) :
    (footerIndexBlock sh (base + bs.length + rdelBlocks + 2)).eval blocks = .ok (base + bs.length + rdelBlocks + 1) := by
  obtain ⟨hmagic, hindex⟩ := TableReader.footer_index h
  rw [footerIndexBlock, Reads.eval_bind, Reads.eval_block, Except.bind, Reads.eval_bind, Reads.eval_ofExcept,
    (TableReader.footer_fields h).1, Except.bind, hmagic, hindex, if_neg (by simp)]
  rfl

/-- A fresh cursor has the entries from the first key of the ref on. -/
theorem init_spec (h : TableOn sh blocks base k bs rdelBlocks minSeq)
    (hs : bs.flatten.Pairwise fun x y => x.key ≤ y.key) (hval : ∀ e ∈ bs.flatten, (wireVal e).length ≤ sh.VAL_MAX)
    {tref : TableRef} (ht : PointsTo tref base bs rdelBlocks) :
    ∃ cur, (init sh tref).eval blocks = .ok cur ∧ cur.dataBlocks = bs.length ∧
      Remaining sh base bs cur (bs.flatten.dropWhile (·.key < tref.firstKey)) := by
  have hstop := ht.stop_le
  have hids := h.ids
  have hidx : Indexed sh base bs := ⟨h.block, hs, by omega, h.fits⟩
  have htotal := length_flatten_le h.block
  have hcount : tref.dataBlocks = some bs.length := by
    rw [TableRef.dataBlocks, ht.blockCount_eq, ht.rdelBlocks_eq, if_neg (by omega)]
    congr 1
    omega
  have hfooter : tref.footerBlock = some (base + bs.length + rdelBlocks + 2) := by
    rw [TableRef.footerBlock, ht.firstBlock_eq, ht.blockCount_eq, if_neg (by omega)]
    congr 1
    omega
  have hfirst : tref.dataFirst = base := ht.firstBlock_eq
  have hitake : (blocks (base + bs.length + rdelBlocks + 1)).take (bodyEnd sh) = indexPayload sh base bs := by
    rw [h.index, sealPlain, take_withCrc (length_sealPlain h.fits)]
    rfl
  have hicrc : checkBlockCrc sh (blocks (base + bs.length + rdelBlocks + 1)) (base + bs.length + rdelBlocks + 1) = .ok () := by
    rw [h.index]
    exact TableReader.checkBlockCrc_sealPlain h.fits _
  unfold init
  rw [hcount, hfooter, hfirst]
  dsimp only
  split
  · rename_i hzero
    have hnil := List.length_eq_zero_iff.mp hzero
    subst hnil
    exact ⟨_, rfl, rfl, Or.inl ⟨rfl, rfl⟩⟩
  rename_i hne
  -- The blocks from `pos` on, when all keys of the blocks before are below the bound.
  have hfrom : ∀ (c : Cursor) (pos : Nat), c.firstBlock = base → c.dataBlocks = bs.length → pos < bs.length →
      (∀ e ∈ (bs.take pos).flatten, e.key < tref.firstKey) →
      ∃ cur, (do
        let cur ← c.firstOf sh pos c.firstBlock
        skipBelow sh tref.firstKey (bs.length * sh.BLOCK) cur : Reads Error Cursor).eval blocks = .ok cur ∧
        cur.dataBlocks = bs.length ∧ Remaining sh base bs cur (bs.flatten.dropWhile (·.key < tref.firstKey)) := by
    intro c pos hcf hcn hpos hbelow
    obtain ⟨cur₁, hrun₁, hn₁, hrem₁⟩ := firstOf_spec h hval hcf hcn c.firstBlock hpos
    have hsplit : bs.flatten = (bs.take pos).flatten ++ (bs.drop pos).flatten := by
      rw [← List.flatten_append, List.take_append_drop]
    have hlen : (bs.drop pos).flatten.length ≤ bs.length * sh.BLOCK := by
      rw [hsplit, List.length_append] at htotal
      omega
    obtain ⟨cur, hrun, hn, hrem⟩ := skipBelow_spec h hval tref.firstKey hrem₁ hlen
    refine ⟨cur, ?_, hn.trans hn₁, ?_⟩
    · rw [Reads.eval_bind, hrun₁]
      exact hrun
    · rw [hsplit, List.dropWhile_append_of_pos fun e he => decide_eq_true (hbelow e he)]
      exact hrem
  rw [Reads.eval_bind, footerIndexBlock_spec h, Except.bind, Reads.eval_bind, Reads.eval_block, Except.bind, Reads.eval_bind,
    Reads.eval_ofExcept, hicrc, Except.bind, Reads.eval_bind, Reads.eval_ofExcept, hitake]
  rcases hidx.lookup tref.firstKey (base + bs.length + rdelBlocks + 1) with ⟨hnone, -⟩ | ⟨pos, hpos, hsome, hbelow⟩
  · rw [hnone]
    exact hfrom _ 0 rfl rfl (by omega) (by simp)
  · rw [hsome]
    show ∃ cur, Reads.eval blocks (if base + pos < base ∨ base + pos - base ≥ bs.length then _ else _) = _ ∧ _
    rw [if_neg (by omega), show base + pos - base = pos by omega]
    refine hfrom _ pos rfl rfl hpos fun e he => ?_
    exact hidx.lt_of_before hpos hbelow e he

/-- The stream of a table: its entries from the first key of the ref on. -/
theorem entryStream_spec (h : TableOn sh blocks base k bs rdelBlocks minSeq)
    (hs : bs.flatten.Pairwise fun x y => x.key ≤ y.key) (hval : ∀ e ∈ bs.flatten, (wireVal e).length ≤ sh.VAL_MAX)
    {tref : TableRef} (ht : PointsTo tref base bs rdelBlocks) :
    (entryStream sh tref).eval blocks = .ok ((bs.flatten.dropWhile (·.key < tref.firstKey)).map stored) := by
  obtain ⟨cur, hrun, hn, hrem⟩ := init_spec h hs hval ht
  have hlen : (bs.flatten.dropWhile (·.key < tref.firstKey)).length < cur.dataBlocks * sh.BLOCK + 1 := by
    have hsub := (List.dropWhile_sublist (l := bs.flatten) (·.key < tref.firstKey)).length_le
    have htotal := length_flatten_le h.block
    rw [hn]
    omega
  rw [entryStream, Reads.eval_bind, hrun]
  exact drain_spec h hval hrem hlen

end Cursor

end Horton
