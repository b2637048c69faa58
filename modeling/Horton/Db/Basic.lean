import Horton.Manifest.Commit
import Horton.Slots
import Horton.Sstable.Writer
import Horton.Wal.Writer

/-!
# The database handle

The state of `Db`, where it lives on the device, and the pure parts of its methods: layout, region checks, snapshots,
the choice of a slot, and whether compaction has work.  The block buffers of the read path and the block cache are not
part of it.
-/

namespace Horton

open BlockDev

structure Config where
  walStart : Nat
  walEnd : Nat
  tblStart : Nat
  tblEnd : Nat
  manifestA : Nat
  manifestB : Nat
  manifestRing : Nat
  deviceBlocks : Nat
  nodeId : Nat
  deriving DecidableEq, Repr

namespace Config

def wholeDevice (deviceBlocks : Nat) : Config := ⟨0, 0, 0, 0, 0, 0, 0, deviceBlocks, 0⟩

def new (walStart walEnd tblStart tblEnd manifestA manifestB : Nat) : Config :=
  ⟨walStart, walEnd, tblStart, tblEnd, manifestA, manifestB, 0, 0, 0⟩

def withManifestRing (c : Config) (copies : Nat) : Config := { c with manifestRing := if copies < 2 then 2 else copies }

def withNodeId (c : Config) (nodeId : Nat) : Config := { c with nodeId := nodeId }

/-- Where the manifest's copies live. -/
def manifestLayout (c : Config) : ManifestLayout :=
  if c.manifestRing = 0 then .pair c.manifestA c.manifestB else .ringOf c.manifestA c.manifestRing

variable (sh : Shape)

/-- Table slots: one per manifest table ref. -/
def SLOTS : Nat := sh.LEVELS * sh.TABLES

/-- A full memtable's table must fit a slot. -/
def MIN_SLOT_BLOCKS : Nat := Sstable.maxFlushBlocks sh

def walShare (space : Nat) : Nat := if space / 8 > 2 then space / 8 else 2

/-- The layout of a whole device; a hand-placed configuration is returned unchanged. -/
def resolveLayout (c : Config) : Config :=
  if c.deviceBlocks = 0 then c
  else
    let total := c.deviceBlocks
    let stride := Manifest.maxBlocks sh
    let copies := if c.manifestRing = 0 then 2 else c.manifestRing
    let manifestEnd := stride * copies
    let space := total - manifestEnd
    let slot := (space - walShare space) / SLOTS sh
    let tblStart := total - slot * SLOTS sh
    ⟨manifestEnd, tblStart, tblStart, total, 0, if c.manifestRing = 0 then stride else 0, c.manifestRing, total, c.nodeId⟩

/-- Two ranges of blocks share none. -/
def disjoint (a b : Nat × Nat) : Bool := a.2 ≤ b.1 || b.2 ≤ a.1

/-- Refuses regions that are empty or overlap. -/
def checkRegions (c : Config) : Except Error Unit :=
  let stride := Manifest.maxBlocks sh
  let layout := c.manifestLayout
  let wal := (c.walStart, c.walEnd)
  let tbl := (c.tblStart, c.tblEnd)
  let copy := fun k => (layout.copyStart k stride, layout.copyStart k stride + stride)
  if wal.1 ≥ wal.2 ∨ tbl.1 ≥ tbl.2 ∨ !disjoint wal tbl then .error .badConfig
  else if (List.range layout.copies).any fun k =>
      (copy k).2 > U64_MAX || !disjoint (copy k) wal || !disjoint (copy k) tbl ||
        (List.range k).any fun j => !disjoint (copy k) (copy j) then .error .badConfig
  else .ok ()

end Config

/-- Live snapshots, at most. -/
def MAX_SNAPSHOTS : Nat := 8

structure Db where
  wal : WalWriter
  table : MemTable
  manifest : Manifest
  slots : SlotMap
  jobGen : Nat
  jobActive : Bool
  jobInputs : Nat
  manualLevel : Option Nat
  manualMark : Nat
  manualStart : Nat
  manualSkip : Nat
  cfg : Config
  nextSeq : Nat
  snapshots : List Nat
  opened : Bool
  deriving DecidableEq, Repr

/-- Summary of an `open`. -/
structure OpenReport where
  recoveredRecords : Nat
  maxSeq : Nat
  l0Tables : Nat
  deriving DecidableEq, Repr

namespace Db

variable (sh : Shape)

/-- A closed handle. -/
def new (config : Config) : Db :=
  let config := config.resolveLayout sh
  { wal := .new sh config.walStart config.walEnd
    table := .new
    manifest := .new sh
    slots := .new
    jobGen := 0
    jobActive := false
    jobInputs := 0
    manualLevel := none
    manualMark := 0
    manualStart := 0
    manualSkip := 0
    cfg := config
    nextSeq := 0
    snapshots := []
    opened := false }

/-- Runs a program of the WAL writer. -/
def onWal {α : Type} (p : Prog WalWriter Error α) : Prog Db Error α := p.zoom Db.wal fun w db => { db with wal := w }

/-- Runs a program of the manifest. -/
def onManifest {α : Type} (p : Prog Manifest Error α) : Prog Db Error α :=
  p.zoom Db.manifest fun m db => { db with manifest := m }

def ensureOpen : Prog Db Error Unit := do
  let db ← Prog.get
  if db.opened then pure () else Prog.throw .notOpen

/-! ### Compaction's claims on the region -/

def COMPACTION_RESERVE : Nat := if sh.LEVELS ≥ 2 then 2 else 0

def slotOf (db : Db) (t : TableRef) : Option Nat := db.slots.slotOf t.firstBlock t.blockCount

/-- Whether the open request still has the table to compact. -/
def isDue (db : Db) (t : TableRef) : Bool :=
  t.id < db.manualMark && (db.slotOf t).all fun slot => !bit db.manualSkip slot

def levelHasDue (db : Db) (l : Nat) : Bool := (db.manifest.level l).any db.isDue

def deeperHasTables (db : Db) (l : Nat) : Bool :=
  (List.range sh.LEVELS).any fun m => l + 1 ≤ m && !(db.manifest.level m).isEmpty

def manualPending (db : Db) : Bool := db.manualLevel.any fun l => db.levelHasDue l || db.deeperHasTables sh l

def underPressure (db : Db) : Bool := db.slots.freeSlots + db.slots.reservedSlots ≤ COMPACTION_RESERVE sh

def wantsJob (db : Db) (l : Nat) (pressure : Bool) : Bool :=
  let n := (db.manifest.level l).length
  n ≥ sh.TABLES || (pressure && n ≥ if l = 0 then 2 else 1)

/-- The level the next job drains. -/
def fullLevel (db : Db) : Option Nat :=
  if sh.LEVELS < 2 then none
  else
    let above := (List.range (sh.LEVELS - 1)).reverse
    (above.find? fun l => db.wantsJob sh l false).or (above.find? fun l => db.wantsJob sh l (db.underPressure sh))

def compactionPending (db : Db) : Bool := db.jobActive || (db.fullLevel sh).isSome || db.manualPending sh

/-- Abandons the compaction job in flight. -/
def abortJob (db : Db) : Db :=
  if db.jobActive then { db with slots := db.slots.releaseAll, jobActive := false, jobInputs := 0 } else db

/-- The error for "no room for another table". -/
def noRoom (db : Db) : Error := if db.compactionPending sh then .needsCompaction else .regionFull

/-- The slot for a flushed or ingested table of `blocks` blocks; nothing is reserved. -/
def freeSlotFor (db : Db) (blocks : Nat) : Except Error Nat :=
  if blocks > db.slots.slotBlocks then .error .tableTooLarge
  else
    let headroom := db.slots.freeSlots + db.slots.reservedSlots
    match if headroom > COMPACTION_RESERVE sh then db.slots.findFree else none with
    | some slot => .ok slot
    | none => .error (db.noRoom sh)

/-! ### Snapshots -/

/-- Registers the current sequence number and returns it. -/
def snapshot : Prog Db Error Nat := do
  let db ← Prog.get
  if !db.opened then Prog.throw .notOpen
  else if db.snapshots.length ≥ MAX_SNAPSHOTS then Prog.throw .snapshotLimit
  else
    Prog.set { db with snapshots := db.snapshots ++ [db.nextSeq] }
    return db.nextSeq

/-- Removes one entry of a list by moving the last one into its place. -/
def swapRemove (l : List Nat) (i : Nat) : List Nat :=
  if i + 1 < l.length then l.dropLast.set i (l.getLastD 0) else l.dropLast

/-- Releases a snapshot; an unknown one is left alone. -/
def releaseSnapshot (snap : Nat) : Prog Db Error Unit :=
  Prog.modify fun db =>
    match db.snapshots.findIdx? (· = snap) with
    | some i => { db with snapshots := swapRemove db.snapshots i }
    | none => db

def oldestSnapshotSeq (db : Db) : Nat := db.snapshots.foldl min U64_MAX

end Db

end Horton
