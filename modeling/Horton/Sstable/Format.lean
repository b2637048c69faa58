import Horton.Compress
import Horton.Crc
import Horton.MemTable
import Horton.Wal.Record

/-!
# Tables on the device

The table format of `sstable.rs`: `[data block]* [rdel block]* [bloom block] [index block] [footer block]`, each block
closed by the CRC-32 of the bytes before.  This file has the encoding of one entry, one range tombstone and one index
entry, the bloom filter, and how a buffer becomes a block; entries are packed into blocks greedily (`entryFits`).
-/

namespace Horton

/-- ASCII "hrtsst02", little-endian. -/
def SSTABLE_MAGIC : Nat := 0x3230747373747268

structure SstEntry where
  key : Bytes
  val : Bytes
  seq : Nat
  tombstone : Bool
  expireAt : Nat
  deriving DecidableEq, Repr

/-- One range tombstone `[start, stop)`. -/
structure RdelEntry where
  start : Bytes
  stop : Bytes
  seq : Nat
  deriving DecidableEq, Repr

def SstEntry.ofEntry (e : Entry) : SstEntry := ⟨e.key, e.val, e.seq, e.tombstone, e.expireAt⟩

/-- The point entries of a memtable, as a flush writes them. -/
def MemTable.points (t : MemTable) : List SstEntry := (t.iter.filter fun e => !e.rangeDel).map .ofEntry

/-- The range tombstones of a memtable. -/
def MemTable.rdels (t : MemTable) : List RdelEntry :=
  t.iter.filterMap fun e => if e.rangeDel then some ⟨e.key, e.val, e.seq⟩ else none

namespace Sstable

def ENTRY_HEADER : Nat := 13

def RESTART_INTERVAL : Nat := 16

def MAX_ENTRIES_PER_BLOCK : Nat := 128 * RESTART_INTERVAL

def CRC_LEN : Nat := 4

def MAX_DATA_TAIL : Nat := 128 * 2 + 2 + CRC_LEN

/-- Trailer bytes of an rdel block. -/
def RDEL_TRAILER : Nat := 6

variable (sh : Shape)

/-- The bytes of a block before its CRC. -/
def bodyEnd : Nat := sh.BLOCK - CRC_LEN

/-! ### Entries -/

/-- Whether the entry carries an expiry. -/
def hasTtl (e : SstEntry) : Bool := !e.tombstone && e.expireAt ≠ 0

/-- The value bytes on the wire: a tombstone has none. -/
def wireVal (e : SstEntry) : Bytes := if e.tombstone then [] else e.val

/-- The length of the entry on the wire, when its key and value have lengths the header can hold. -/
def entrySizes (e : SstEntry) : Except Error Nat :=
  if e.key.isEmpty then .error .emptyKey
  else if e.key.length > U16_MAX then .error (.keyTooLarge e.key.length U16_MAX)
  else if (wireVal e).length > U16_MAX then .error (.valueTooLarge (wireVal e).length U16_MAX)
  else .ok (ENTRY_HEADER + e.key.length + (wireVal e).length + if hasTtl e then 8 else 0)

def entryOp (e : SstEntry) : Op := if e.tombstone then .delete else if hasTtl e then .putTtl else .put

def encodeEntry (e : SstEntry) : Bytes :=
  Bytes.leBytes 2 e.key.length ++ Bytes.leBytes 2 (wireVal e).length ++ Bytes.leBytes 8 e.seq ++
    [(entryOp e).toU8] ++ e.key ++ wireVal e ++ if hasTtl e then Bytes.leBytes 8 e.expireAt else []

/-- Whether an entry of `elen` bytes fits a block that holds `payload` bytes in `entries` entries. -/
def entryFits (payload entries elen : Nat) : Bool :=
  if elen > sh.BLOCK then false
  else if entries ≥ MAX_ENTRIES_PER_BLOCK then false
  else payload + elen + ((entries / RESTART_INTERVAL + 1) * 2 + 6) ≤ sh.BLOCK

def encodeRdel (r : RdelEntry) : Bytes :=
  Bytes.leBytes 2 r.start.length ++ Bytes.leBytes 2 r.stop.length ++ Bytes.leBytes 8 r.seq ++ r.start ++ r.stop

def rdelEntryLen (startLen endLen : Nat) : Nat := startLen + endLen + 12

/-- `first_key_len u16 | first_key | block_id u64 | max_seq u64`. -/
def encodeIndexEntry (firstKey : Bytes) (blockId maxSeq : Nat) : Bytes :=
  Bytes.leBytes 2 firstKey.length ++ firstKey ++ Bytes.leBytes 8 blockId ++ Bytes.leBytes 8 maxSeq

/-- Appends one index entry, unless the index would overflow its block. -/
def appendIndex (index firstKey : Bytes) (blockId maxSeq : Nat) : Except Error Bytes :=
  if firstKey.length > U16_MAX then .error .tableTooLarge
  else if index.length + (2 + firstKey.length + 8 + 8) > sh.BLOCK - CRC_LEN then .error .tableTooLarge
  else .ok (index ++ encodeIndexEntry firstKey blockId maxSeq)

/-! ### The bloom filter -/

/-- Probes per key for a filter of `bloomBits` bits over `entries` keys. -/
def bloomK (bloomBits entries : Nat) : Nat :=
  let k :=
    if 0 < entries ∧ entries * 1000 ≤ U64_MAX ∧ bloomBits * 693 ≤ U64_MAX then bloomBits * 693 / (entries * 1000) else 1
  max 1 (min k 30)

def fxFold (key : Bytes) : UInt64 :=
  key.foldl (fun h b => ((h <<< 5 ||| h >>> 59) + b.toUInt64) * 0x517cc1b727220a95) 0x517cc1b727220a95

def splitmix64 (x : UInt64) : UInt64 :=
  let z := x + 0x9e3779b97f4a7c15
  let z := (z ^^^ (z >>> 30)) * 0xbf58476d1ce4e5b9
  let z := (z ^^^ (z >>> 27)) * 0x94d049bb133111eb
  z ^^^ (z >>> 31)

/-- The bit positions of `key`, by double hashing. -/
def probePositions (key : Bytes) (k bits : Nat) : List Nat :=
  let h1 := splitmix64 (fxFold key)
  let h2 := splitmix64 (h1 ^^^ 0x9e3779b97f4a7c15)
  (List.range k).map fun i => (h1 + UInt64.ofNat i * h2).toNat % bits

def setBit (bloom : Bytes) (p : Nat) : Bytes := bloom.modify (p / 8) (· ||| 1 <<< UInt8.ofNat (p % 8))

def bloomAdd (bloom key : Bytes) (k : Nat) : Bytes :=
  if bloom.length * 8 = 0 then bloom else (probePositions key k (bloom.length * 8)).foldl setBit bloom

def bloomMaybeContains (bloom key : Bytes) (k : Nat) : Bool :=
  if bloom.length * 8 = 0 then true
  else (probePositions key k (bloom.length * 8)).all fun p => (bloom.getD (p / 8) 0) >>> UInt8.ofNat (p % 8) &&& 1 = 1

/-! ### Sealing a block -/

/-- Closes a body with its CRC. -/
def withCrc (body : Bytes) : Bytes := body ++ Bytes.leBytes CRC_LEN (crc32 body)

/-- A block without a restart tail: the payload, zeros, the CRC. -/
def sealPlain (payload : Bytes) : Bytes := withCrc (payload ++ Bytes.zeros (bodyEnd sh - payload.length))

/-- The logical body of a data block: the first `payload` bytes of the buffer, zeros, the restart offsets and their
number. -/
def dataBody (buf : Bytes) (payload : Nat) (restarts : List Nat) : Except Error Bytes :=
  let tailLen := restarts.length * 2 + 2
  if bodyEnd sh < tailLen then .error .tableTooLarge
  else
    let rstart := bodyEnd sh - tailLen
    if payload > rstart then .error .tableTooLarge
    else .ok (buf.take payload ++ Bytes.zeros (rstart - payload) ++ restarts.flatMap (Bytes.leBytes 2) ++
      Bytes.leBytes 2 restarts.length)

/-- The compressed form of a body, with the flag and its length in the last two bytes. -/
def flagCompressed (c : Bytes) : Bytes :=
  Bytes.splice (c ++ Bytes.zeros (bodyEnd sh - c.length)) (bodyEnd sh - 2)
    (Bytes.leBytes 2 (0x8000 ||| (c.length &&& 0x7FFF)))

/-- The data block that `seal_block` leaves in the buffer and writes. -/
def sealData (buf : Bytes) (payload : Nat) (restarts : List Nat) (compressed : Bool) : Except Error Bytes := do
  let body ← dataBody sh buf payload restarts
  let body := if compressed then
      match compress sh.BLOCK body with
      | some c => flagCompressed sh c
      | none => body
    else body
  return withCrc body

/-- A block of `count` range tombstones. -/
def sealRdel (payload : Bytes) (count : Nat) : Except Error Bytes :=
  if count > U16_MAX then .error .tableTooLarge
  else .ok (withCrc (payload ++ Bytes.zeros (bodyEnd sh - 2 - payload.length) ++ Bytes.leBytes 2 count))

/-! ### Planning -/

structure TablePlan where
  dataBlocks : Nat
  entryCount : Nat
  maxSeq : Nat
  minSeq : Nat
  firstKey : Bytes
  lastKey : Bytes
  deriving DecidableEq, Repr

/-- The running state of `plan_table`; `n` entries of `payload` bytes are in the open block. -/
structure PlanState where
  dataBlocks : Nat
  payload : Nat
  n : Nat
  count : Nat
  maxSeq : Nat
  minSeq : Nat
  first : Option Bytes
  last : Option Bytes

def PlanState.new : PlanState := ⟨0, 0, 0, 0, 0, U64_MAX, none, none⟩

/-- Closes the open block when an entry of `elen` bytes does not fit it. -/
def PlanState.room (s : PlanState) (elen : Nat) : Except Error PlanState :=
  if entryFits sh s.payload s.n elen then .ok s
  else if s.n = 0 then .error .tableTooLarge
  else if !entryFits sh 0 0 elen then .error .tableTooLarge
  else .ok { s with dataBlocks := s.dataBlocks + 1, payload := 0, n := 0 }

def PlanState.step (s : PlanState) (e : SstEntry) : Except Error PlanState := do
  let elen ← entrySizes e
  let s ← s.room sh elen
  return { s with
    payload := s.payload + elen
    n := s.n + 1
    count := s.count + 1
    maxSeq := max s.maxSeq e.seq
    minSeq := min s.minSeq e.seq
    first := s.first.or (some e.key)
    last := some e.key }

/-- A bound of at most `KEY_MAX` bytes; the empty one when there is no key. -/
def planBound : Option Bytes → Except Error Bytes
  | none => .ok []
  | some k => if k.length > sh.KEY_MAX then .error (.keyTooLarge k.length sh.KEY_MAX) else .ok k

def planTable (entries : List SstEntry) : Except Error TablePlan := do
  let s ← entries.foldlM (PlanState.step sh) .new
  let firstKey ← planBound sh s.first
  let lastKey ← planBound sh s.last
  return ⟨if s.n > 0 then s.dataBlocks + 1 else s.dataBlocks, s.count, s.maxSeq, s.minSeq, firstKey, lastKey⟩

structure RdelPlan where
  blocks : Nat
  first : Option Bytes
  maxEnd : Option Bytes
  maxSeq : Nat
  minSeq : Nat
  deriving DecidableEq, Repr

def planRdelStep (s : RdelPlan × Nat) (r : RdelEntry) : Except Error (RdelPlan × Nat) :=
  let (p, payload) := s
  let el := rdelEntryLen r.start.length r.stop.length
  if el + RDEL_TRAILER > sh.BLOCK then .error .tableTooLarge
  else
    let full := payload + el + RDEL_TRAILER > sh.BLOCK
    .ok (⟨if full then p.blocks + 1 else p.blocks, p.first.or (some r.start),
      if p.maxEnd.all (r.stop > ·) then some r.stop else p.maxEnd, max p.maxSeq r.seq, min p.minSeq r.seq⟩,
      (if full then 0 else payload) + el)

def planRdelBlocks (rdels : List RdelEntry) : Except Error RdelPlan := do
  let (p, payload) ← rdels.foldlM (planRdelStep sh) (⟨0, none, none, 0, U64_MAX⟩, 0)
  return { p with blocks := if payload > 0 then p.blocks + 1 else p.blocks }

/-- Upper bound on the blocks greedy packing uses. -/
def packedBlocksBound (total n emax room perBlock : Nat) : Nat :=
  if n = 0 then 0
  else
    let byBytes := if room > emax then total / (room - emax + 1) else n
    min (byBytes + n / perBlock + 1) n

/-- Upper bound on the blocks one flush can occupy. -/
def maxFlushBlocks : Nat :=
  let emax := ENTRY_HEADER + sh.KEY_MAX + sh.VAL_MAX + 8
  let data := packedBlocksBound (sh.ARENA + sh.CAP * (ENTRY_HEADER + 8)) sh.CAP emax (sh.BLOCK - MAX_DATA_TAIL)
    MAX_ENTRIES_PER_BLOCK
  let rdel := packedBlocksBound (sh.ARENA + sh.CAP * 12) sh.CAP (12 + 2 * sh.KEY_MAX) (sh.BLOCK - RDEL_TRAILER) U64_MAX
  data + rdel + 3

end Sstable

end Horton
