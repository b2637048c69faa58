import Horton.Db.Basic

/-!
# Flush

The memtable becomes one table in a free slot.  The manifest commit is the point where the table becomes visible; until
then nothing in memory changes.
-/

namespace Horton

open BlockDev

/-- The lesser bound; an empty one loses to any key. -/
def KeyBound.min (a b : Bytes) : Bytes := if a = [] then b else if b = [] then a else if b < a then b else a

/-- The greater bound; an empty one loses to any key. -/
def KeyBound.max (a b : Bytes) : Bytes := if a = [] then b else if b = [] then a else if b > a then b else a

namespace Db

variable (sh : Shape)

/-- The edit that moves the head of an exhausted WAL back to its start. -/
def wrapEdit (db : Db) : ManifestEdit := (ManifestEdit.EMPTY.setWalHead db.cfg.walStart).noteFlushed db.nextSeq

/-- Wraps the WAL when the region is exhausted and nothing is unflushed. -/
def wrapWalIfFull : Prog Db Error Unit := do
  let db ← Prog.get
  if db.wal.nextBlock < db.cfg.walEnd then pure ()
  else
    onManifest (Manifest.commitEdit sh db.cfg.manifestLayout db.wrapEdit)
    Prog.modify fun db => { db with wal := db.wal.resetTo db.cfg.walStart }

/-- A bound of at most `KEY_MAX` bytes, or the empty one. -/
def rdelBound (b : Option Bytes) : Bytes := (b.filter (·.length ≤ sh.KEY_MAX)).getD []

/-- The ref of the flushed table; its bounds and numbers cover both sections. -/
def flushTref (nodeId id base total : Nat) (plan : Sstable.TablePlan) (rdelPlan : Sstable.RdelPlan) :
    Except Error TableRef :=
  if total > U32_MAX then .error .tableTooLarge
  else if plan.entryCount > U32_MAX then .error .tableTooLarge
  else .ok
    { id := id
      firstBlock := base
      blockCount := total
      firstKey := KeyBound.min plan.firstKey (rdelBound sh rdelPlan.first)
      lastKey := KeyBound.max plan.lastKey (rdelBound sh rdelPlan.maxEnd)
      maxSeq := max plan.maxSeq rdelPlan.maxSeq
      minSeq := min plan.minSeq rdelPlan.minSeq
      entryCount := plan.entryCount
      rdelBlocks := rdelPlan.blocks
      nodeId := nodeId
      sealWall := 0 }

/-- The blocks of the flushed table: data, range tombstones, bloom, index, footer. -/
def writeFlushTable {σ : Type} (table : MemTable) (base k : Nat) (plan : Sstable.TablePlan)
    (rdelPlan : Sstable.RdelPlan) : Prog σ Error Unit := do
  let _ ← Prog.runLocal ((TableWriter.new sh base k).withBlockLimit plan.dataBlocks) do
    Sstable.pushAll sh true table.points
    let dataBlocks ← TableWriter.sealTail sh true
    if base + dataBlocks > U64_MAX then Prog.throw .tableTooLarge
    else
      let rdelWritten ← Sstable.writeRdelBlocks sh (base + dataBlocks) table.rdels
      TableWriter.finishMeta sh rdelWritten rdelPlan.minSeq

/-- Whether the next write needs the WAL wrapped. -/
def wraps (db : Db) : Bool := db.wal.nextBlock ≥ db.cfg.walEnd

/-- The edit of a flush: the new table, the WAL head behind the flushed records, the floor. -/
def flushEdit (db : Db) (tref : TableRef) : Except Error ManifestEdit := do
  let edit := ManifestEdit.EMPTY.advanceNextTableId (db.manifest.nextTableId + 1)
  let edit ← edit.add 0 tref
  return (edit.setWalHead (if db.wraps then db.cfg.walStart else db.wal.nextBlock)).noteFlushed db.nextSeq

def flush : Prog Db Error Unit := do
  ensureOpen
  onWal WalWriter.commit
  let db ← Prog.get
  if db.table.isEmpty then wrapWalIfFull sh
  else if db.manifest.l0.length ≥ sh.TABLES then Prog.throw (db.noRoom sh)
  else
    let plan ← Prog.ofExcept (Sstable.planTable sh db.table.points)
    let rdelPlan ← Prog.ofExcept (Sstable.planRdelBlocks sh db.table.rdels)
    let k := Sstable.bloomK (sh.BLOOM_BYTES * 8) plan.entryCount
    let total := rdelPlan.blocks + plan.dataBlocks + 3
    let slot ← Prog.ofExcept (db.freeSlotFor sh total)
    let base := db.slots.slotBase slot
    writeFlushTable sh db.table base k plan rdelPlan
    if db.manifest.nextTableId + 1 > U32_MAX then Prog.throw .counterExhausted
    else
      let tref ← Prog.ofExcept (flushTref sh db.cfg.nodeId db.manifest.nextTableId base total plan rdelPlan)
      let edit ← Prog.ofExcept (db.flushEdit tref)
      onManifest (Manifest.commitEdit sh db.cfg.manifestLayout edit)
      Prog.modify fun db' =>
        { db' with
          slots := db'.slots.claim slot
          table := db'.table.clear
          wal := if db.wraps then db'.wal.resetTo db'.cfg.walStart else db'.wal }

end Db

end Horton
