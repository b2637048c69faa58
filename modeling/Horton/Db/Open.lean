import Horton.Db.Basic

/-!
# Open

Recovers the manifest, rebuilds the slot map from it and replays the WAL into a fresh memtable.
-/

namespace Horton

open BlockDev

namespace Db

variable (sh : Shape)

/-- Marks the slots of the live tables, each wholly inside its own; also returns the slot of the newest table. -/
def markTables : List TableRef → SlotMap → Option (Nat × Nat) → Except Error (SlotMap × Option (Nat × Nat))
  | [], slots, newest => .ok (slots, newest)
  | t :: ts, slots, newest => do
    let slot ← (slots.slotOf t.firstBlock t.blockCount).elim (.error .corruptManifest) .ok
    let slots ← (slots.markUsed slot).elim (.error .corruptManifest) .ok
    markTables ts slots (if newest.all (t.id > ·.1) then some (t.id, slot) else newest)

/-- The slot map of a manifest; next-fit resumes past the newest table. -/
def rebuildSlots (m : Manifest) (slots : SlotMap) : Except Error SlotMap := do
  let (slots, newest) ← markTables m.tables slots none
  return (newest.map fun n => slots.setHintAfter n.2).getD slots

def open_ : Prog Db Error OpenReport := do
  -- A failed or interrupted open leaves the handle closed.
  Prog.modify fun db =>
    { db with
      opened := false
      table := db.table.clear
      jobActive := false
      jobInputs := 0
      jobGen := (db.jobGen + 1) % 2 ^ 32
      manualLevel := none }
  let db ← Prog.get
  Prog.ofExcept (db.cfg.checkRegions sh)
  let slots ← Prog.ofExcept ((SlotMap.layout db.cfg.tblStart db.cfg.tblEnd (Config.SLOTS sh)
    (Config.MIN_SLOT_BLOCKS sh)).elim (.error .badConfig) .ok)
  let (manifest, fresh) ← (Manifest.recoverFrom sh db.cfg.manifestLayout).run .device
  -- Nothing was ever committed: the whole WAL region is live.
  let manifest := if fresh then { manifest with walHead := db.cfg.walStart } else manifest
  Prog.modify fun db => { db with manifest := manifest }
  let slots ← Prog.ofExcept (rebuildSlots manifest slots)
  Prog.modify fun db => { db with slots := slots }
  let (table, state) ← onWal (WalWriter.recoverFrom sh .new manifest.walHead manifest.flushedSeq)
  let nextSeq := max (max state.maxSeq manifest.seqHigh) manifest.maxSeq
  Prog.modify fun db => { db with table := table, nextSeq := nextSeq, opened := true }
  return ⟨state.records, nextSeq, manifest.l0.length⟩

end Db

end Horton
