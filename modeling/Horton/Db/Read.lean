import Horton.Compact.RdelMerger
import Horton.Db.Basic
import Horton.Sstable.Covering
import Horton.Version

/-!
# Point reads

`read_point` of `read.rs`: the memtable, then every table; the highest version at or below `maxSeq` wins, and a newer range
tombstone around the key hides it.  `rdel_hides` asks the same of the key a scan is parked on.
-/

namespace Horton

open BlockDev Sstable

/-- The best hit of a read so far. -/
inductive Best
  | missing
  | tombstone
  | value (val : Bytes)
  deriving DecidableEq, Repr

structure ReadAcc where
  best : Best
  bestVer : Version
  bestExpireAt : Nat
  coverVer : Version
  deriving DecidableEq, Repr

/-- A key inside the bounds of a table; outside of them it is absent, or dead. -/
def TableRef.covers (t : TableRef) (key : Bytes) : Bool := decide (t.firstKey ≤ key ∧ key ≤ t.lastKey)

namespace ReadAcc

def new : ReadAcc := ⟨.missing, .ZERO, 0, .ZERO⟩

/-- The answer of a table's point lookup, promoted when it is visible and wins. -/
def point (acc : ReadAcc) (t : TableRef) (maxSeq : Nat) : Sstable.Lookup → ReadAcc
  | .value val seq expireAt =>
    if seq ≤ maxSeq ∧ versionGt (.table t.nodeId t.sealWall seq) acc.bestVer then
      { acc with best := .value val, bestVer := .table t.nodeId t.sealWall seq, bestExpireAt := expireAt }
    else acc
  | .tombstone seq =>
    if seq ≤ maxSeq ∧ versionGt (.table t.nodeId t.sealWall seq) acc.bestVer then
      { acc with best := .tombstone, bestVer := .table t.nodeId t.sealWall seq }
    else acc
  | .missing => acc

/-- The answer of a table's range-tombstone probe. -/
def cover (acc : ReadAcc) (t : TableRef) : Option Nat → ReadAcc
  | some q =>
    if versionGt (.table t.nodeId t.sealWall q) acc.coverVer then { acc with coverVer := .table t.nodeId t.sealWall q }
    else acc
  | none => acc

end ReadAcc

namespace Db

variable (sh : Shape)

/-- Considers one table: both prunes, the lookup, the probe. -/
def considerTable (key : Bytes) (maxSeq : Nat) (acc : ReadAcc) (t : TableRef) : Reads Error ReadAcc :=
  if !t.covers key || !versionGt (.table t.nodeId t.sealWall t.maxSeq) acc.bestVer then pure acc
  else
    match t.footerBlock with
    | none => .fail .corruptManifest
    | some footer => do
      let reader ← TableReader.open_ sh footer
      let hit ← reader.lookupAt sh key sh.VAL_MAX maxSeq
      let acc := acc.point t maxSeq hit
      if reader.rdelBlocks > 0 then
        let q ← coveringRdelSeqIn sh reader.rdelFirst reader.rdelBlocks key maxSeq
        return acc.cover t q
      else return acc

/-- What a read takes from the memtable. -/
def considerMemtable (db : Db) (key : Bytes) (maxSeq : Nat) : ReadAcc :=
  let acc := match db.table.getAt key maxSeq with
    | some entry =>
      if entry.tombstone then { ReadAcc.new with best := .tombstone, bestVer := .memtable db.cfg.nodeId entry.seq }
      else { ReadAcc.new with
        best := .value entry.val
        bestVer := .memtable db.cfg.nodeId entry.seq
        bestExpireAt := entry.expireAt }
    | none => ReadAcc.new
  match db.table.maxCoveringRdel key maxSeq with
  | some q => { acc with coverVer := .memtable db.cfg.nodeId q }
  | none => acc

/-- The tables in the order a read considers them: level 0 newest first, then the deeper levels. -/
def readOrder (db : Db) : List TableRef :=
  (List.range sh.LEVELS).flatMap fun li => if li = 0 then (db.manifest.level 0).reverse else db.manifest.level li

/-- The winner of a read, unless it is hidden or expired. -/
def answer (valBuf now : Nat) (acc : ReadAcc) : Reads Error (Option Bytes) :=
  match acc.best with
  | .missing => pure none
  | .tombstone => pure none
  | .value val =>
    if versionGt acc.coverVer acc.bestVer then pure none
    else if acc.bestExpireAt ≠ 0 ∧ acc.bestExpireAt ≤ now then pure none
    else if val.length > valBuf then .fail (.bufferTooSmall val.length)
    else pure (some val)

/-- The point-read rule; `exclude` names a table to leave out. -/
def readPoint (db : Db) (key : Bytes) (valBuf maxSeq now : Nat) (exclude : Option Nat) : Reads Error (Option Bytes) := do
  let tables := (db.readOrder sh).filter fun t => decide (some t.id ≠ exclude)
  let acc ← tables.foldlM (considerTable sh key maxSeq) (db.considerMemtable key maxSeq)
  answer valBuf now acc

def getAtWithTime (db : Db) (key : Bytes) (valBuf maxSeq now : Nat) : Reads Error (Option Bytes) :=
  if db.opened then db.readPoint sh key valBuf maxSeq now none else .fail .notOpen

/-! ### For scans -/

/-- The tables in the order of the manifest. -/
def scanOrder (db : Db) : List TableRef := (List.range sh.LEVELS).flatMap db.manifest.level

/-- The loop of `rdel_hides` over the tables. -/
def hidesIn (key : Bytes) (maxSeq : Nat) (above : Version) : List TableRef → Reads Error Bool
  | [] => pure false
  | t :: ts =>
    if t.rdelBlocks = 0 || !versionGt (.table t.nodeId t.sealWall t.maxSeq) above || !t.covers key then
      hidesIn key maxSeq above ts
    else
      match t.rdelFirst with
      | none => .fail .corruptManifest
      | some first => do
        let q ← coveringRdelSeqIn sh first t.rdelBlocks key maxSeq
        if q.any fun q => versionGt (.table t.nodeId t.sealWall q) above then return true
        else hidesIn key maxSeq above ts

/-- Whether a range tombstone newer than `above` covers the key. -/
def rdelHides (db : Db) (key : Bytes) (maxSeq : Nat) (above : Version) : Reads Error Bool :=
  if (db.table.maxCoveringRdel key maxSeq).any fun q => versionGt (.memtable db.cfg.nodeId q) above then pure true
  else hidesIn sh key maxSeq above (db.scanOrder sh)

end Db

end Horton
