import Horton.Compact.Cursor
import Horton.Db.Sources

/-!
# The blocks of a scan

How both kinds of cursor read a table: its data blocks with the place where their entries end, and its index.  The block
buffer that the cursors of a scan share only saves reads; here a block is read whenever it is needed.
-/

namespace Horton

open BlockDev Sstable

namespace Scans

variable (sh : Shape)

/-- Loads a data block; returns it with the offset where its entries end. -/
def loadBlock (id : Nat) : Reads Error (Bytes × Nat) := do
  let body ← readDataBlock sh id
  let stop ← Reads.ofExcept (dataEntriesEnd sh body id)
  if stop = 0 then .fail (.corruptBlock id) else return (body, stop)

/-- The payload of the index block behind a footer, and its id. -/
def readIndex (footer : Nat) : Reads Error (Bytes × Nat) := do
  let indexId ← footerIndexBlock sh footer
  let index ← Reads.block indexId
  Reads.ofExcept (checkBlockCrc sh index indexId)
  return (index.take (bodyEnd sh), indexId)

variable {sh : Shape} {blocks : Nat → Bytes} {base k : Nat} {bs : List (List SstEntry)} {rdelBlocks minSeq : Nat}
  {b : List SstEntry} {c : Contents}

theorem loadBlock_spec (h : TableOn sh blocks base k bs rdelBlocks minSeq) {i : Nat} (hi : bs[i]? = some b) :
    (loadBlock sh (base + i)).eval blocks = .ok (logicalBody sh b, rstartOf sh b) := by
  have hb := h.block b (List.mem_of_getElem? hi)
  have hpos := length_le_encodeEntries b
  have hlen : 0 < b.length := List.length_pos_iff.mpr hb.ne_nil
  have hle := hb.length_le.1
  unfold loadBlock
  rw [Reads.eval_bind, (h.data i b hi).readDataBlock hb, Except.bind, Reads.eval_bind, Reads.eval_ofExcept,
    Cursor.dataEntriesEnd_spec hb, Except.bind, if_neg (by omega)]
  rfl

theorem readIndex_spec (h : TableOn sh blocks base k bs rdelBlocks minSeq) :
    (readIndex sh (base + bs.length + rdelBlocks + 2)).eval blocks =
      .ok (indexPayload sh base bs, base + bs.length + rdelBlocks + 1) := by
  have hitake : (blocks (base + bs.length + rdelBlocks + 1)).take (bodyEnd sh) = indexPayload sh base bs := by
    rw [h.index, sealPlain, take_withCrc (length_sealPlain h.fits)]
    rfl
  have hicrc : checkBlockCrc sh (blocks (base + bs.length + rdelBlocks + 1)) (base + bs.length + rdelBlocks + 1) =
      .ok () := by
    rw [h.index]
    exact TableReader.checkBlockCrc_sealPlain h.fits _
  unfold readIndex
  rw [Reads.eval_bind, Cursor.footerIndexBlock_spec h, Except.bind, Reads.eval_bind, Reads.eval_block, Except.bind,
    Reads.eval_bind, Reads.eval_ofExcept, hicrc, Except.bind, hitake]
  rfl

/-- The blocks of a table ref that points to a table. -/
theorem blocks_of_pointsTo {tref : TableRef} (ht : Cursor.PointsTo tref base bs rdelBlocks) :
    tref.dataBlocks = some bs.length ∧ tref.footerBlock = some (base + bs.length + rdelBlocks + 2) := by
  have hstop := ht.stop_le
  constructor
  · rw [TableRef.dataBlocks, ht.blockCount_eq, ht.rdelBlocks_eq, if_neg (by omega)]
    congr 1
    omega
  · rw [TableRef.footerBlock, ht.firstBlock_eq, ht.blockCount_eq, if_neg (by omega)]
    congr 1
    omega

theorem pointsTo_of_on {t : TableRef} (hc : c.On sh blocks t) :
    ∃ k bs rdelBlocks minSeq, TableOn sh blocks t.firstBlock k bs rdelBlocks minSeq ∧ bs.flatten = c.points t.id ∧
      Cursor.PointsTo t t.firstBlock bs rdelBlocks := by
  obtain ⟨k, bs, bins, minSeq, hon, -, -, -, -, -, hrdel, hcount, hstop, hpoints, -⟩ := hc.stored
  exact ⟨k, bs, bins.length, minSeq, hon, hpoints, rfl, hcount, hrdel, hcount ▸ hstop⟩

/-- Behind the last entry there is only padding. -/
theorem parseDataEntry_end (hb : BlockOk sh b) (id : Nat) :
    parseDataEntry (logicalBody sh b) (encodeEntries b).length (rstartOf sh b) id = .error (.corruptBlock id) := by
  unfold parseDataEntry
  by_cases hlt : (encodeEntries b).length < rstartOf sh b
  · rw [if_neg (by omega), hb.entries_take.stop hlt]
    rfl
  · rw [if_pos (by omega)]

end Scans

end Horton
