import Horton.Lib.Reads
import Horton.Lib.Search
import Horton.Sstable.Format

/-!
# The table reader

The read side of `sstable.rs`, without the block cache: how a block is verified and inflated, how the index and the
entries of a data block are parsed and searched, and the point lookup.  Reads are programs of `Reads`; the value that a
lookup copies into the caller's buffer of `valBuf` bytes is part of its result.
-/

namespace Horton

open BlockDev

namespace Sstable

variable (sh : Shape)

/-- A parse failure in block `id`. -/
def orCorrupt {α : Type} (id : Nat) (o : Option α) : Except Error α := o.elim (.error (.corruptBlock id)) .ok

def checkBlockCrc (block : Bytes) (id : Nat) : Except Error Unit :=
  if crc32 (block.take (bodyEnd sh)) ≠ Bytes.leNat ((block.drop (bodyEnd sh)).take CRC_LEN) then
    .error (.corruptBlock id)
  else .ok ()

/-- The logical body of a flagged block; `none` for a block stored as it is. -/
def inflateDataBlock (raw : Bytes) (id : Nat) : Except Error (Option Bytes) :=
  let trailer := Bytes.leNat ((raw.drop (bodyEnd sh - 2)).take 2)
  if trailer &&& 0x8000 = 0 then .ok none
  else
    let clen := trailer &&& 0x7FFF
    if clen ≥ bodyEnd sh then .error (.corruptBlock id)
    else match decompress (raw.take clen) (bodyEnd sh) with
      | .ok body => .ok (some body)
      | .error _ => .error (.corruptBlock id)

/-- Reads a data block; returns its logical body. -/
def readDataBlock (id : Nat) : Reads Error Bytes := do
  let raw ← Reads.block id
  Reads.ofExcept (checkBlockCrc sh raw id)
  let inflated ← Reads.ofExcept (inflateDataBlock sh raw id)
  return inflated.getD (raw.take (bodyEnd sh))

/-! ### The index -/

/-- `(first_key, block_id, next_offset)`; a zero key length is where the padding starts. -/
def indexEntryParse (payload : Bytes) (off : Nat) : Option (Bytes × Nat × Nat) := do
  let kl ← Bytes.slice payload off 2
  if Bytes.leNat kl = 0 then none
  else
    let key ← Bytes.slice payload (off + 2) (Bytes.leNat kl)
    let idOff := off + 2 + Bytes.leNat kl
    let blockId ← Bytes.slice payload idOff 8
    let next := idOff + 16
    if next > payload.length then none else some (key, Bytes.leNat blockId, next)

/-- The index entry `i` places behind the one at `off`. -/
def indexEntryFrom (payload : Bytes) : Nat → Nat → Option (Bytes × Nat × Nat)
  | 0, off => indexEntryParse payload off
  | i + 1, off => do
    let (_, _, next) ← indexEntryParse payload off
    indexEntryFrom payload i next

def indexEntryAt (payload : Bytes) (i : Nat) : Option (Bytes × Nat × Nat) := indexEntryFrom payload i 0

/-- The linear pass that counts the entries; an entry takes more than a byte, so the payload is long enough as fuel. -/
def indexCount (payload : Bytes) (indexId : Nat) : Nat → Nat → Nat → Except Error Nat
  | 0, _, count => .ok count
  | fuel + 1, off, count =>
    if off < payload.length then
      match indexEntryParse payload off with
      | some (_, _, next) => indexCount payload indexId fuel next (count + 1)
      | none => if Bytes.allZero (payload.drop off) then .ok count else .error (.corruptBlock indexId)
    else .ok count

/-- The number of entries whose first key is at most `key`, and the number of all; `none` when the first is zero. -/
def indexUpperBound (payload key : Bytes) (indexId : Nat) : Except Error (Option (Nat × Nat)) := do
  let count ← indexCount payload indexId payload.length 0 0
  let lo ← Search.lowerBound (fun mid => do
    let (fkey, _, _) ← orCorrupt indexId (indexEntryAt payload mid)
    return decide (fkey ≤ key)) count 0 count
  return if lo = 0 then none else some (lo, count)

/-- Walks back over the entries whose first key is `key`. -/
def indexWalkBack (payload key : Bytes) (indexId : Nat) : Nat → Except Error Nat
  | 0 => .ok 0
  | pos + 1 => do
    let (fkey, _, _) ← orCorrupt indexId (indexEntryAt payload (pos + 1))
    if fkey ≠ key then return pos + 1 else indexWalkBack payload key indexId pos

/-- The first data block that may hold `key`, and how many blocks there are from it on. -/
def indexLookup (payload key : Bytes) (indexId : Nat) : Except Error (Option (Nat × Nat)) := do
  match ← indexUpperBound payload key indexId with
  | none => return none
  | some (lo, count) =>
    let pos ← indexWalkBack payload key indexId (lo - 1)
    let (_, blockId, _) ← orCorrupt indexId (indexEntryAt payload pos)
    return some (blockId, count - pos)

/-- The last data block whose first key is at most `key`. -/
def indexLastLeBlock (payload key : Bytes) (indexId : Nat) : Except Error (Option Nat) := do
  match ← indexUpperBound payload key indexId with
  | none => return none
  | some (lo, _) =>
    let (_, blockId, _) ← orCorrupt indexId (indexEntryAt payload (lo - 1))
    return some blockId

/-! ### Data blocks -/

structure ParsedEntry where
  key : Bytes
  val : Bytes
  seq : Nat
  op : Op
  expireAt : Nat
  deriving DecidableEq, Repr

/-- The entry at `off` and the offset of the next one; a zero key length is where the padding starts. -/
def dataEntryParse (payload : Bytes) (off : Nat) : Option (ParsedEntry × Nat) := do
  let kl ← Bytes.slice payload off 2
  if Bytes.leNat kl = 0 then none
  else
    let vl ← Bytes.slice payload (off + 2) 2
    let seq ← Bytes.slice payload (off + 4) 8
    let opByte ← payload[off + 12]?
    let op ← Op.fromU8 opByte
    let key ← Bytes.slice payload (off + ENTRY_HEADER) (Bytes.leNat kl)
    let val ← Bytes.slice payload (off + ENTRY_HEADER + Bytes.leNat kl) (Bytes.leNat vl)
    let next := off + ENTRY_HEADER + Bytes.leNat kl + Bytes.leNat vl
    let expiry ← Bytes.slice payload next (if op = .putTtl then 8 else 0)
    some (⟨key, val, Bytes.leNat seq, op, Bytes.leNat expiry⟩, next + expiry.length)

inductive DataHit
  | value (val : Bytes) (seq expireAt : Nat)
  | tombstone (seq : Nat)
  deriving DecidableEq, Repr

/-- What one data block contributes to a lookup. -/
inductive BlockOutcome
  | hit (h : DataHit)
  | absent
  | truncated
  deriving DecidableEq, Repr

/-- Unparseable bytes at `off`: padding up to the restart tail ends the block, anything else is corrupt. -/
def blockEnd (payload : Bytes) (off rstart id : Nat) : Except Error BlockOutcome :=
  if Bytes.allZero ((payload.drop off).take (rstart - off)) then .ok .truncated else .error (.corruptBlock id)

/-- The answer for an entry that the read observes. -/
def observe (entry : ParsedEntry) (valBuf : Nat) : Except Error BlockOutcome :=
  if entry.op = .delete then .ok (.hit (.tombstone entry.seq))
  else if entry.val.length > valBuf then .error (.bufferTooSmall entry.val.length)
  else .ok (.hit (.value entry.val entry.seq entry.expireAt))

/-- Inside the version run of `key`, at `entry`; the next entry starts at `next`. -/
def scanRun (payload key : Bytes) (valBuf id maxSeq rstart : Nat) : Nat → ParsedEntry → Nat → Except Error BlockOutcome
  | fuel, entry, next =>
    if entry.seq ≤ maxSeq then observe entry valBuf
    else if next ≥ rstart then .ok .truncated
    else match dataEntryParse payload next with
      | none => blockEnd payload next rstart id
      | some (e, n) =>
        if e.key ≠ key then .ok .absent
        else match fuel with
          | 0 => .ok .truncated
          | fuel + 1 => scanRun payload key valBuf id maxSeq rstart fuel e n

/-- The linear scan from `off` on. -/
def scanBlock (payload key : Bytes) (valBuf id maxSeq rstart : Nat) : Nat → Nat → Except Error BlockOutcome
  | 0, _ => .ok .truncated
  | fuel + 1, off =>
    if off < rstart then
      match dataEntryParse payload off with
      | none => blockEnd payload off rstart id
      | some (entry, next) =>
        if entry.key < key then scanBlock payload key valBuf id maxSeq rstart fuel next
        else if entry.key = key then scanRun payload key valBuf id maxSeq rstart fuel entry next
        else .ok .absent
    else .ok .truncated

/-- The offset of restart point `i`. -/
def restartAt (payload : Bytes) (rstart i : Nat) : Option Nat := do
  let bytes ← Bytes.slice payload (rstart + i * 2) 2
  if Bytes.leNat bytes ≥ rstart then none else some (Bytes.leNat bytes)

/-- Searches the logical body of one data block: binary search over the restart points, then a scan. -/
def dataLookup (payload key : Bytes) (valBuf id maxSeq : Nat) : Except Error BlockOutcome :=
  if payload.length < 6 then .error (.corruptBlock id)
  else
    let rcount := Bytes.leNat (payload.drop (payload.length - 2))
    if payload.length < 2 + rcount * 2 then .error (.corruptBlock id)
    else do
      let rstart := payload.length - (2 + rcount * 2)
      let lo ← Search.lowerBound (fun mid => do
        let roff ← orCorrupt id (restartAt payload rstart mid)
        let (entry, _) ← orCorrupt id (dataEntryParse payload roff)
        return decide (entry.key < key)) rcount 0 rcount
      let off ← if lo = 0 then .ok 0 else orCorrupt id (restartAt payload rstart (lo - 1))
      scanBlock payload key valBuf id maxSeq rstart payload.length off

/-- The answer of one table. -/
inductive Lookup
  | value (val : Bytes) (seq expireAt : Nat)
  | tombstone (seq : Nat)
  | missing
  deriving DecidableEq, Repr

end Sstable

/-! ### Point lookups -/

structure TableReader where
  indexBlock : Nat
  bloomBlock : Nat
  entryCount : Nat
  k : Nat
  rdelFirst : Nat
  rdelBlocks : Nat
  minSeq : Nat
  deriving DecidableEq, Repr

namespace TableReader

open Sstable

variable (sh : Shape)

/-- The number in `scratch[off..off + len]`. -/
def field (scratch : Bytes) (off len : Nat) : Nat := Bytes.leNat ((scratch.drop off).take len)

/-- Opens the table that ends at `footerBlock`. -/
def open_ (footerBlock : Nat) : Reads Error TableReader := do
  let scratch ← Reads.block footerBlock
  Reads.ofExcept (checkBlockCrc sh scratch footerBlock)
  if field scratch 0 8 ≠ SSTABLE_MAGIC then .fail (.corruptBlock footerBlock)
  else if field scratch 32 1 = 0 then .fail (.corruptBlock footerBlock)
  else if field scratch 16 8 < field scratch 33 4 then .fail (.corruptBlock footerBlock)
  else
    return { indexBlock := field scratch 8 8
             bloomBlock := field scratch 16 8
             entryCount := field scratch 24 8
             k := field scratch 32 1
             rdelFirst := field scratch 16 8 - field scratch 33 4
             rdelBlocks := field scratch 33 4
             minSeq := field scratch 37 8 }

/-- The walk over data blocks from `id` on, while a block ends inside the run of `key`; `more` blocks follow. -/
def walkBlocks (key : Bytes) (valBuf maxSeq : Nat) : Nat → Nat → Reads Error Sstable.Lookup
  | more, id => do
    let body ← readDataBlock sh id
    match ← Reads.ofExcept (dataLookup body key valBuf id maxSeq) with
    | .hit (.value val seq expireAt) => return .value val seq expireAt
    | .hit (.tombstone seq) => return .tombstone seq
    | .absent => return .missing
    | .truncated =>
      match more with
      | 0 => return .missing
      | more + 1 => if id + 1 > U64_MAX then .fail (.corruptBlock id) else walkBlocks key valBuf maxSeq more (id + 1)

/-- The newest version of `key` with a sequence number of at most `maxSeq`.  A corrupt bloom block disables the gate. -/
def lookupAt (r : TableReader) (key : Bytes) (valBuf maxSeq : Nat) : Reads Error Sstable.Lookup := do
  let bloom ← Reads.block r.bloomBlock
  if (checkBlockCrc sh bloom r.bloomBlock).isOk && !bloomMaybeContains (bloom.take sh.BLOOM_BYTES) key r.k then
    return .missing
  else
    let index ← Reads.block r.indexBlock
    Reads.ofExcept (checkBlockCrc sh index r.indexBlock)
    match ← Reads.ofExcept (indexLookup (index.take (bodyEnd sh)) key r.indexBlock) with
    | none => return .missing
    | some (id, remaining) => walkBlocks sh key valBuf maxSeq (remaining - 1) id

end TableReader

end Horton
