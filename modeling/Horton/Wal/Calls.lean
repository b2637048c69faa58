import Horton.Wal.Log

/-!
# Batches of records

`append_batch` of `wal.rs`: it stages the records of a batch one by one, writes the blocks that fill up, commits once, and
reports how far it came.  A `WalCall` is one thing the owner of a log does with its writer, on a device whose calls may
fail: append a record, a batch of records or an atomic group, drop staged groups again, commit, flush, lose power,
recover.  The state is that of `LogSys`; here the caller numbers the records, increasing from above everything that may
still be replayed (`LogSys.top`).
-/

namespace Horton

open BlockDev GroupLog

/-- One record of a batch; `seq` is a `u64`, and `expireAt` is used only for a `putTtl`. -/
structure BatchRecord extends BatchOp where
  seq : Nat
  seqLt : seq < 2 ^ 64
  deriving Repr

/-- What `append_batch` reports: `durable` records are flush-acknowledged, `consumed` ones may replay after a crash. -/
structure BatchReport where
  durable : Nat
  consumed : Nat
  error : Option Error
  deriving DecidableEq, Repr

namespace BatchRecord

/-- The WAL record it becomes. -/
def record (rec : BatchRecord) : Record := rec.toBatchOp.record rec.seq false

variable (sh : Shape)

def append (rec : BatchRecord) : Prog WalWriter Error Unit :=
  if rec.kind = .putTtl then WalWriter.appendTtl sh rec.seq rec.key rec.val rec.expireAt
  else WalWriter.append sh rec.seq rec.kind rec.key rec.val

theorem append_eq (rec : BatchRecord) : rec.append sh = rec.toBatchOp.append sh rec.seq false := rfl

end BatchRecord

namespace WalWriter

variable (sh : Shape)

/-- The loop of `append_batch`: the number of records appended, and the error that ended it. -/
def appendRecords : List BatchRecord → Nat → Prog WalWriter Error (Nat × Option Error)
  | [], appended => pure (appended, none)
  | rec :: records, appended => do
    match ← Prog.attempt (rec.append sh) with
    | .error e => return (appended, some e)
    | .ok _ => appendRecords records (appended + 1)

/-- Appends records as one batch and flushes once. -/
def appendBatch (records : List BatchRecord) : Prog WalWriter Error BatchReport := do
  if records = [] then return ⟨0, 0, none⟩
  else
    let mark ← Prog.get
    let (appended, appendErr) ← appendRecords sh records 0
    match ← Prog.attempt commit with
    | .ok _ => return ⟨appended, appended, appendErr⟩
    | .error commitErr =>
      let w ← Prog.get
      if w.nextBlock = mark.nextBlock then
        -- Nothing reached the device.
        Prog.modify fun w => w.truncateStage mark.stageLen
        return ⟨0, 0, some commitErr⟩
      else
        -- Blocks landed but the flush failed: the appended prefix may replay.
        return ⟨0, appended, some commitErr⟩

/-- How `Db::write` appends a group: an error takes back what was staged of it. -/
def appendWhole (seq : Nat) (ops : List BatchOp) : Prog WalWriter Error Unit := do
  let mark ← Prog.get
  match ← Prog.attempt (appendGroup sh seq ops) with
  | .ok _ => pure ()
  | .error e =>
    Prog.modify fun w => w.truncateStage mark.stageLen
    Prog.throw e

end WalWriter

inductive WalCall
  | append (rec : BatchRecord)
  | batch (records : List BatchRecord)
  | group (seq : Nat) (ops : List BatchOp)
  | truncate (n : Nat)
  | commit
  /-- `high` is what else the manifest knows about numbers already issued. -/
  | flush (high : Nat)
  | crash
  | recover (high : Nat)

namespace WalCall

/-- The records that the caller hands in. -/
def records : WalCall → List Record
  | append rec => [rec.record]
  | batch recs => recs.map BatchRecord.record
  | group seq ops => groupRecords seq ops
  | _ => []

end WalCall

inductive WalAnswer
  | ok
  | err (e : Error)
  | report (rep : BatchReport)
  | refused
  | crashed
  deriving DecidableEq

/-- The groups that are no longer staged, and those that fill the last `len` bytes. -/
def unstaged (len : Nat) : List (List Record) → List (List Record) × List (List Record)
  | [] => ([], [])
  | g :: gs => if lens (g :: gs).flatten ≤ len then ([], g :: gs) else ((unstaged len gs).map (g :: ·) id)

/-- Each record of a batch is a group of its own. -/
def singles (recs : List BatchRecord) : List (List Record) := recs.map fun rec => [rec.record]

namespace LogSys

variable (sh : Shape)

/-- The highest number that is staged or may be on the device. -/
def top (s : LogSys) : Nat := maxSeq s.base s.staged.flatten

/-- A call took the groups `gs` and left the writer and the device in this state. -/
def took (s : LogSys) (gs : List (List Record)) (w : WalWriter) (d : Device) : LogSys :=
  let r := unstaged w.stageLen (s.staged ++ gs)
  { s with wal := w, dev := d, base := maxSeq s.base r.1.flatten, staged := r.2 }

/-- Runs a program of the writer. -/
def exec {α : Type} (s : LogSys) (p : Prog WalWriter Error α) (k : α → WalWriter → Device → WalAnswer × LogSys) :
    WalAnswer × LogSys :=
  match p s.wal s.dev with
  | (.ok a, w, d) => k a w d
  | (.err e, w, d) => (.err e, s.took [] w d)
  | (.cut, _, d) => (.crashed, s.down d)
  | (.dropped, w, d) => (.refused, s.took [] w d)

/-- The manifest edit of a flush lifts the floor over everything issued and moves the head. -/
def lifted (s : LogSys) (high : Nat) : LogSys :=
  let floor := max s.top high
  if s.wal.nextBlock ≥ s.wal.walEnd then
    { s with head := s.wal.walStart, floor := floor, base := floor, wal := s.wal.resetTo s.wal.walStart }
  else { s with head := s.wal.nextBlock, floor := floor, base := floor }

def call (s : LogSys) : WalCall → WalAnswer × LogSys
  | .append rec =>
    if s.up = false ∨ rec.seq ≤ s.top then (.refused, s)
    else s.exec (rec.append sh) fun _ w d => (.ok, s.took [[rec.record]] w d)
  | .batch recs =>
    if s.up = false ∨ ¬ (recs.Pairwise fun a b => a.seq < b.seq) ∨ ¬ ∀ rec ∈ recs, s.top < rec.seq then (.refused, s)
    else s.exec (WalWriter.appendBatch sh recs) fun rep w d =>
      (.report rep, s.took (singles (recs.take rep.consumed)) w d)
  | .group seq ops =>
    -- `Db::write` drains the stage first, which is a `commit` here, and checks the size of the group.
    if s.up = false ∨ ops = [] ∨ s.staged ≠ [] ∨ seq ≤ s.top ∨ seq + ops.length > 2 ^ 64 ∨
        (ops.map BatchOp.needWal).sum > sh.BLOCK then (.refused, s)
    else s.exec (WalWriter.appendWhole sh seq ops) fun _ w d => (.ok, s.took [groupRecords seq ops] w d)
  | .truncate n =>
    if s.up = false then (.refused, s)
    else (.ok, { s with wal := s.wal.truncateStage (lens (s.staged.take n).flatten), staged := s.staged.take n })
  | .commit =>
    if s.up = false then (.refused, s) else s.exec WalWriter.commit fun _ w d => (.ok, s.took [] w d)
  | .flush high =>
    if s.up = false then (.refused, s) else s.exec WalWriter.commit fun _ w d => (.ok, (s.took [] w d).lifted high)
  | .crash => (.crashed, s.down s.dev)
  | .recover high =>
    match WalWriter.recoverFrom sh .new s.head s.floor (WalWriter.new sh s.wal.walStart s.wal.walEnd) s.dev with
    | (.ok (_, st), w, d) => (.ok, s.recovered high w d st)
    | (.err e, _, d) => (.err e, s.down d)
    | (.cut, _, d) => (.crashed, s.down d)
    | (.dropped, _, d) => (.crashed, s.down d)

def calls (s : LogSys) : List WalCall → LogSys
  | [] => s
  | c :: cs => calls (s.call sh c).2 cs

/-- A recovery now, on a device that answers, replays the records `rs` into its table, as far as the table takes them. -/
@[irreducible] def Recovers (s : LogSys) (rs : List Record) : Prop :=
  match (WalWriter.recoverFrom sh .new s.head s.floor (WalWriter.new sh s.wal.walStart s.wal.walEnd)
      { s.dev with fates := [] }).1 with
  | .ok (t, _) => replayAll sh .new rs = .ok t
  | .err _ => ∃ e, replayAll sh .new rs = .error e
  | _ => False

end LogSys

end Horton
