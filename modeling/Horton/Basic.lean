import Horton.Lib.Bytes

/-!
# Shape and errors

The const generics of the database as one record, with the compile-time assertions on them as fields, and the
crate-wide error type.
-/

namespace Horton

/-- `u16::MAX`, `u32::MAX` and `u64::MAX`. -/
def U16_MAX : Nat := 0xFFFF

def U32_MAX : Nat := 0xFFFFFFFF

def U64_MAX : Nat := 0xFFFFFFFFFFFFFFFF

/-- The const generics, with the assertions `Db::new`, `MemTable::new` and `WalWriter::new` evaluate. -/
structure Shape where
  BLOCK : Nat
  KEY_MAX : Nat
  VAL_MAX : Nat
  CAP : Nat
  ARENA : Nat
  LEVELS : Nat
  TABLES : Nat
  BLOOM_BYTES : Nat
  assertMin : 512 ≤ BLOCK
  assertCap : 1 ≤ CAP
  assertArenaFits : ARENA ≤ U32_MAX
  assertKey : 1 ≤ KEY_MAX ∧ KEY_MAX ≤ 0xFFFF
  assertVal : VAL_MAX ≤ 0xFFFF
  assertArena : KEY_MAX + VAL_MAX ≤ ARENA
  assertRec : 23 + KEY_MAX + VAL_MAX ≤ BLOCK
  assertBloom : 1 ≤ BLOOM_BYTES ∧ BLOOM_BYTES + 4 ≤ BLOCK
  assertSlots : 1 ≤ LEVELS ∧ 1 ≤ TABLES ∧ LEVELS * TABLES ≤ 64
  assertJob : TABLES < 8
  assertRdel : 12 + 2 * KEY_MAX + 6 ≤ BLOCK
  assertManifest : (32 + 4 * LEVELS + LEVELS * TABLES * (56 + 2 * KEY_MAX) + (BLOCK - 28) - 1) / (BLOCK - 28) ≤ 0xFFFF

/-- A small shape to run the model on. -/
def Shape.small : Shape where
  BLOCK := 512
  KEY_MAX := 16
  VAL_MAX := 16
  CAP := 4
  ARENA := 64
  LEVELS := 2
  TABLES := 2
  BLOOM_BYTES := 8
  assertMin := by decide
  assertCap := by decide
  assertArenaFits := by decide
  assertKey := by decide
  assertVal := by decide
  assertArena := by decide
  assertRec := by decide
  assertBloom := by decide
  assertSlots := by decide
  assertJob := by decide
  assertRdel := by decide
  assertManifest := by decide

/-- The same with long keys: a single table ref takes more than one manifest block. -/
def Shape.wide : Shape := { Shape.small with
  KEY_MAX := 240
  ARENA := 512
  assertArenaFits := by decide
  assertKey := by decide
  assertArena := by decide
  assertRec := by decide
  assertRdel := by decide
  assertManifest := by decide }

/-- Every failure the crate can report.  The device's own error value is passed through untouched and carries no
information here. -/
inductive Error
  | keyTooLarge (len max : Nat)
  | valueTooLarge (len max : Nat)
  | emptyKey
  | tableFull
  | arenaFull
  | bufferTooSmall (need : Nat)
  | badBufferLen
  | corruptBlock (id : Nat)
  | corruptWal (offset : Nat)
  | corruptManifest
  | walFull
  | needsCompaction
  | regionFull
  | snapshotLimit
  | manifestFull
  | tableTooLarge
  | counterExhausted
  | badLevel (level : Nat)
  | batchFull
  | batchTooLarge (bytes max : Nat)
  | wouldResurrect (table : Nat)
  | ingestConflict (id : Nat)
  | stampConflict (id : Nat)
  | badConfig
  | busy
  | notOpen
  | ringFull
  | badPayload
  | device
  deriving DecidableEq, Repr

end Horton
