import Horton.Lib.Device
import Horton.MemTable
import Horton.Wal.Record

/-!
# The WAL writer

`WalWriter` of `wal.rs`: records are staged in a block buffer and become durable when the block is written.  `stage` is
the whole `BLOCK`-byte buffer, `stageLen` its used part, and everything from `max stageLen dirtyTo` on is zero.  The
device is the one the programs run on.

`recoverFrom` replays the log from a block on.  The first pass over a block finds where its last complete group ends,
the second one replays up to there.
-/

namespace Horton

open BlockDev

structure WalWriter where
  walStart : Nat
  walEnd : Nat
  stage : Bytes
  stageLen : Nat
  dirtyTo : Nat
  nextBlock : Nat
  maxSeq : Nat
  groupOpen : Bool
  deriving DecidableEq, Repr

structure RecoverState where
  records : Nat
  maxSeq : Nat
  blocksUsed : Nat
  deriving DecidableEq, Repr

namespace WalWriter

variable (sh : Shape)

def new (walStart walEnd : Nat) : WalWriter where
  walStart := walStart
  walEnd := walEnd
  stage := Bytes.zeros sh.BLOCK
  stageLen := 0
  dirtyTo := 0
  nextBlock := walStart
  maxSeq := 0
  groupOpen := false

def stagedBytes (w : WalWriter) : Nat := w.stageLen

/-- Discards staged records; their bytes stay in the buffer, inside the dirty mark. -/
def truncateStage (w : WalWriter) (len : Nat) : WalWriter :=
  { w with
    dirtyTo := if w.stageLen > w.dirtyTo then w.stageLen else w.dirtyTo
    stageLen := len
    groupOpen := false }

def resetTo (w : WalWriter) (block : Nat) : WalWriter := { w with nextBlock := block }

/-- The buffer that `write_stage` hands to the device: what an earlier, longer block left behind the staged records is
zeroed. -/
def padded (w : WalWriter) : Bytes :=
  if w.stageLen < w.dirtyTo then Bytes.splice w.stage w.stageLen (Bytes.zeros (w.dirtyTo - w.stageLen)) else w.stage

/-- Writes the current staging buffer as one zero-padded block. -/
def writeStage : Prog WalWriter Error Unit := do
  let w ← Prog.get
  if w.nextBlock ≥ w.walEnd then Prog.throw .walFull
  else
    Prog.set { w with stage := w.padded, dirtyTo := w.stageLen }
    Prog.writeBlock .device w.nextBlock w.padded
    Prog.modify fun w => { w with nextBlock := w.nextBlock + 1, stageLen := 0 }

/-- The end of `append_inner`: the record goes behind the staged ones. -/
def stageRecord (w : WalWriter) (r : Record) : WalWriter :=
  { w with
    stage := Bytes.splice w.stage w.stageLen (encodeRecord r)
    stageLen := w.stageLen + (encodeRecord r).length
    groupOpen := r.more
    maxSeq := if r.seq > w.maxSeq then r.seq else w.maxSeq }

/-- Shared append path; `expireAt` is used only for `putTtl`, and a delete carries no value. -/
def appendInner (seq : Nat) (op : Op) (key val : Bytes) (expireAt : Nat) (more : Bool) : Prog WalWriter Error Unit := do
  let vlen := if op = .delete then 0 else val.length
  let rlen := if op = .putTtl then recordLenTtl key.length vlen else recordLen key.length vlen
  if key.length > U16_MAX then Prog.throw (.keyTooLarge key.length U16_MAX)
  else if vlen > U16_MAX then Prog.throw (.valueTooLarge vlen U16_MAX)
  else if rlen > sh.BLOCK then Prog.throw (.batchTooLarge rlen sh.BLOCK)
  else
    let w ← Prog.get
    if w.stageLen + rlen > sh.BLOCK then
      -- A group commits in one block: never write part of one.
      if w.groupOpen then Prog.throw (.batchTooLarge (w.stageLen + rlen) sh.BLOCK) else writeStage
    Prog.modify fun w =>
      w.stageRecord ⟨seq, op, more, key, val.take vlen, if op = .putTtl then expireAt else 0⟩

def append (seq : Nat) (op : Op) (key val : Bytes) : Prog WalWriter Error Unit := appendInner sh seq op key val 0 false

def appendGrouped (seq : Nat) (op : Op) (key val : Bytes) (more : Bool) : Prog WalWriter Error Unit :=
  appendInner sh seq op key val 0 more

/-- An expiry of 0 means "never" and is stored as a plain put. -/
def appendGroupedTtl (seq : Nat) (key val : Bytes) (expireAt : Nat) (more : Bool) : Prog WalWriter Error Unit :=
  appendInner sh seq (if expireAt = 0 then .put else .putTtl) key val expireAt more

def appendTtl (seq : Nat) (key val : Bytes) (expireAt : Nat) : Prog WalWriter Error Unit :=
  appendInner sh seq (if expireAt = 0 then .put else .putTtl) key val expireAt false

/-- Writes the staged block, if any, and flushes the device. -/
def commit : Prog WalWriter Error Unit := do
  let w ← Prog.get
  if w.stageLen > 0 then writeStage
  Prog.flush .device

/-! ### Recovery -/

/-- The state of the first pass over a block. -/
structure Pass1 where
  off : Nat
  complete : Nat
  torn : Bool
  firstSeq : Option Nat
  lastSeq : Option Nat

/-- Scans records until the block ends, the padding starts, or the bytes are no record or an older one.  Every
iteration moves on by a whole record, so the length of the block is enough fuel. -/
def pass1Loop (block : Bytes) : Nat → Pass1 → Pass1
  | 0, p => p
  | fuel + 1, p =>
    if p.off < block.length then
      match scanRecord (block.drop p.off) with
      | .record d =>
        -- Records of a block increase strictly: an older one was left behind by a previous write.
        if p.lastSeq.any (d.record.seq ≤ ·) then { p with torn := true }
        else
          pass1Loop block fuel
            { off := p.off + d.totalLen
              complete := if d.record.more then p.complete else p.off + d.totalLen
              torn := p.torn
              firstSeq := p.firstSeq.or (some d.record.seq)
              lastSeq := some d.record.seq }
      | .cleanEnd => p
      | .corrupt => { p with torn := true }
    else p

/-- Where the block's last complete group ends, and whether the block is torn behind it. -/
def pass1 (block : Bytes) : Pass1 :=
  let p := pass1Loop block block.length ⟨0, 0, false, none, none⟩
  { p with torn := p.torn || p.complete < p.off }

/-- The memtable insert that replays one record. -/
def replayRecord (table : MemTable) (r : Record) : Except Error MemTable :=
  match r.op with
  | .rangeDelete => table.insertRangeDel sh r.key r.val r.seq
  | .putTtl => table.insertTtl sh r.key r.val r.seq r.expireAt
  | .put => table.insert sh r.key r.val r.seq false
  | .delete => table.insert sh r.key r.val r.seq true

/-- Replays the records up to `complete` that are above the floor; returns the table, the state and the number of
records replayed here. -/
def pass2Loop (block : Bytes) (id complete floor : Nat) :
    Nat → Nat → MemTable → RecoverState → Nat → Except Error (MemTable × RecoverState × Nat)
  | 0, _, table, st, live => .ok (table, st, live)
  | fuel + 1, pos, table, st, live =>
    if pos < complete then
      match scanRecord (block.drop pos) with
      | .record d =>
        let st := { st with maxSeq := if d.record.seq > st.maxSeq then d.record.seq else st.maxSeq }
        if d.record.seq > floor then
          match replayRecord sh table d.record with
          | .ok table =>
            pass2Loop block id complete floor fuel (pos + d.totalLen) table { st with records := st.records + 1 }
              (live + 1)
          | .error _ => .error (.corruptWal id)
        else pass2Loop block id complete floor fuel (pos + d.totalLen) table st live
      | _ => .error (.corruptWal id)
    else .ok (table, st, live)

/-- The block loop of `recover_from`; `fuel` counts the blocks left before `wal_end`. -/
def recoverLoop (start floor : Nat) :
    Nat → MemTable → RecoverState → Option Nat → Prog WalWriter Error (MemTable × RecoverState)
  | 0, table, st, _ => pure (table, st)
  | fuel + 1, table, st, newerThan => do
    let id := start + st.blocksUsed
    let block ← Prog.readBlock .device id
    Prog.modify fun w => { w with stage := block }
    let p := pass1 block
    -- The torn block before this one was the tail after all.
    if newerThan.any (fun f => p.firstSeq.all (· ≤ f)) then pure (table, st)
    else if p.complete = 0 then pure (table, st)
    else
      let (table, st, live) ← Prog.ofExcept (pass2Loop sh block id p.complete floor block.length 0 table st 0)
      if live = 0 && !p.torn then pure (table, st)
      else
        recoverLoop start floor fuel table { st with blocksUsed := st.blocksUsed + 1 }
          (if p.torn then some st.maxSeq else none)

/-- Replays the log from block `start` into `table` and positions the writer behind the last consumed block. -/
def recoverFrom (table : MemTable) (start floor : Nat) : Prog WalWriter Error (MemTable × RecoverState) := do
  let w ← Prog.get
  let (table, st) ← recoverLoop sh start floor (w.walEnd - start) table ⟨0, 0, 0⟩ none
  Prog.modify fun w =>
    { w with
      nextBlock := start + st.blocksUsed
      stageLen := 0
      dirtyTo := sh.BLOCK
      maxSeq := st.maxSeq
      groupOpen := false }
  return (table, st)

end WalWriter

end Horton
