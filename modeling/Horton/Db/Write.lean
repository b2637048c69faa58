import Horton.Batch
import Horton.Db.Basic

/-!
# The write path

Every mutation is appended to the WAL and committed before it lands in the memtable.  A failed append or commit is
rolled back: without a landed block the staged records are truncated away, with one their sequence numbers are consumed.
-/

namespace Horton

open BlockDev

/-- A queued batch: sizes are validated when an operation is queued. -/
structure BatchOp.Valid (sh : Shape) (op : BatchOp) : Prop where
  key_pos : op.key ≠ []
  key_le : op.key.length ≤ sh.KEY_MAX
  val_le : op.val.length ≤ sh.VAL_MAX
  delete_val : op.kind = .delete → op.val = []
  range : op.kind = .rangeDelete → op.key < op.val ∧ op.val.length ≤ sh.KEY_MAX
  expire : op.kind ≠ .putTtl → op.expireAt = 0

structure WriteBatch (sh : Shape) where
  ops : List BatchOp
  valid : ∀ op ∈ ops, op.Valid sh

namespace WriteBatch

variable {sh : Shape}

def new : WriteBatch sh := ⟨[], by simp⟩

/-- A delete stores no value. -/
def valOf (kind : Op) (val : Bytes) : Bytes := if kind = .delete then [] else val

/-- Queues one operation of a batch of at most `cap`, once its sizes are checked.  The two hypotheses are what the four
queueing methods below grant. -/
def push (cap : Nat) (b : WriteBatch sh) (kind : Op) (key val : Bytes) (expireAt : UInt64)
    (hrange : kind = .rangeDelete → key < val ∧ val.length ≤ sh.KEY_MAX) (hexpire : kind ≠ .putTtl → expireAt = 0) :
    Except Error (WriteBatch sh) :=
  if b.ops.length ≥ cap then .error .batchFull
  else if hk : key = [] then .error .emptyKey
  else if key.length > U16_MAX then .error (.keyTooLarge key.length U16_MAX)
  else if hkl : key.length > sh.KEY_MAX then .error (.keyTooLarge key.length sh.KEY_MAX)
  else if (valOf kind val).length > U16_MAX then .error (.valueTooLarge (valOf kind val).length U16_MAX)
  else if hv : (valOf kind val).length > sh.VAL_MAX then .error (.valueTooLarge (valOf kind val).length sh.VAL_MAX)
  else .ok
    { ops := b.ops ++ [⟨kind, key, valOf kind val, expireAt.toNat, expireAt.toNat_lt⟩]
      valid := by
        intro op hop
        rcases List.mem_append.mp hop with hop | hop
        · exact b.valid op hop
        · obtain rfl := List.mem_singleton.mp hop
          refine ⟨hk, Nat.le_of_not_lt hkl, Nat.le_of_not_lt hv, fun hd => ?_, fun hr => ?_, fun he => ?_⟩
          · exact if_pos hd
          · have hv' : valOf kind val = val := if_neg (by rw [show kind = .rangeDelete from hr]; decide)
            show key < valOf kind val ∧ (valOf kind val).length ≤ sh.KEY_MAX
            rw [hv']
            exact hrange hr
          · exact congrArg UInt64.toNat (hexpire he) }

def put (cap : Nat) (b : WriteBatch sh) (key val : Bytes) : Except Error (WriteBatch sh) :=
  b.push cap .put key val 0 (by simp) (by simp)

def delete (cap : Nat) (b : WriteBatch sh) (key : Bytes) : Except Error (WriteBatch sh) :=
  b.push cap .delete key [] 0 (by simp) (by simp)

/-- No expiry queues a plain put. -/
def putTtl (cap : Nat) (b : WriteBatch sh) (key val : Bytes) (expireAt : UInt64) : Except Error (WriteBatch sh) :=
  b.push cap (if expireAt = 0 then .put else .putTtl) key val expireAt (by split <;> simp) (by split <;> simp_all)

/-- An empty or inverted range queues nothing. -/
def rangeDelete (cap : Nat) (b : WriteBatch sh) (start stop : Bytes) : Except Error (WriteBatch sh) :=
  if h : start ≥ stop then .ok b
  else if hl : stop.length > sh.KEY_MAX then .error (.keyTooLarge stop.length sh.KEY_MAX)
  else b.push cap .rangeDelete start stop 0 (fun _ => ⟨not_le.mp h, Nat.le_of_not_lt hl⟩) (by simp)

end WriteBatch

/-- One single-op write. -/
inductive Mutation
  | put (key val : Bytes)
  | putTtl (key val : Bytes) (expireAt : UInt64)
  | delete (key : Bytes)
  | rangeDelete (start stop : Bytes)
  deriving DecidableEq, Repr

namespace Mutation

variable (sh : Shape)

/-- The check against the memtable. -/
def check (m : Mutation) (t : MemTable) : Except Error Unit :=
  match m with
  | put key val => t.checkInsert sh key val false
  | putTtl key val _ => t.checkInsert sh key val false
  | delete key => t.checkInsert sh key [] true
  | rangeDelete start stop => t.checkInsertRangeDel sh start stop

def append (m : Mutation) (seq : Nat) : Prog WalWriter Error Unit :=
  match m with
  | put key val => WalWriter.append sh seq .put key val
  | putTtl key val expireAt => WalWriter.appendTtl sh seq key val expireAt.toNat
  | delete key => WalWriter.append sh seq .delete key []
  | rangeDelete start stop => WalWriter.append sh seq .rangeDelete start stop

def insert (m : Mutation) (t : MemTable) (seq : Nat) : Except Error MemTable :=
  match m with
  | put key val => t.insert sh key val seq false
  | putTtl key val expireAt => t.insertTtl sh key val seq expireAt.toNat
  | delete key => t.insert sh key [] seq true
  | rangeDelete start stop => t.insertRangeDel sh start stop seq

/-- The mutation as a batch operation. -/
def op : Mutation → BatchOp
  | put key val => ⟨.put, key, val, 0, by decide⟩
  | putTtl key val expireAt => ⟨.putTtl, key, val, expireAt.toNat, expireAt.toNat_lt⟩
  | delete key => ⟨.delete, key, [], 0, by decide⟩
  | rangeDelete start stop => ⟨.rangeDelete, start, stop, 0, by decide⟩

end Mutation

/-- The memtable insert of one batch operation. -/
def BatchOp.insert (sh : Shape) (op : BatchOp) (t : MemTable) (seq : Nat) : Except Error MemTable :=
  match op.kind with
  | .put => t.insert sh op.key op.val seq false
  | .delete => t.insert sh op.key op.val seq true
  | .putTtl => t.insertTtl sh op.key op.val seq op.expireAt
  | .rangeDelete => t.insertRangeDel sh op.key op.val seq

/-- The inserts of a batch numbered from `seq` on. -/
def insertOps (sh : Shape) : Nat → List BatchOp → MemTable → Except Error MemTable
  | _, [], t => .ok t
  | seq, op :: ops, t => do
    let t ← op.insert sh t seq
    insertOps sh (seq + 1) ops t

/-- WAL staging state before a mutation. -/
structure StageMark where
  stageLen : Nat
  nextBlock : Nat
  deriving DecidableEq, Repr

namespace Db

variable (sh : Shape)

def stageMark (db : Db) : StageMark := ⟨db.wal.stagedBytes, db.wal.nextBlock⟩

/-- Undoes a failed commit. -/
def rollbackCommit (mark : StageMark) (seqs : Nat) : Prog Db Error Unit := do
  let db ← Prog.get
  if db.wal.nextBlock = mark.nextBlock then Prog.set { db with wal := db.wal.truncateStage mark.stageLen }
  else if db.nextSeq + seqs > U64_MAX then Prog.throw .counterExhausted
  else Prog.set { db with nextSeq := db.nextSeq + seqs }

/-- Rolls a failed append or commit back and returns its error. -/
def failCommit {α : Type} (mark : StageMark) (seqs : Nat) (e : Error) : Prog Db Error α := do
  rollbackCommit mark seqs
  Prog.throw e

/-- The commit of staged records, with `seqs` numbers to consume when it fails behind a landed block. -/
def commitStaged (mark : StageMark) (seqs : Nat) : Prog Db Error Unit := do
  match ← Prog.attempt (onWal WalWriter.commit) with
  | .ok _ => pure ()
  | .error e =>
    let db ← Prog.get
    failCommit mark (if db.wal.nextBlock ≠ mark.nextBlock then seqs else 0) e

/-- An append, rolled back when it fails. -/
def stageAppend (mark : StageMark) (p : Prog WalWriter Error Unit) : Prog Db Error Unit := do
  match ← Prog.attempt (onWal p) with
  | .ok _ => pure ()
  | .error e => failCommit mark 0 e

/-- The single-op write path. -/
def commitMutation (m : Mutation) : Prog Db Error Nat := do
  ensureOpen
  let db ← Prog.get
  Prog.ofExcept (m.check sh db.table)
  if db.nextSeq + 1 > U64_MAX then Prog.throw .counterExhausted
  else
    let seq := db.nextSeq + 1
    let mark := db.stageMark
    stageAppend mark (m.append sh seq)
    commitStaged mark 1
    Prog.modify fun db => { db with nextSeq := seq }
    let table ← Prog.ofExcept (m.insert sh db.table seq)
    Prog.modify fun db => { db with table := table }
    return seq

def put (key val : Bytes) : Prog Db Error Nat := commitMutation sh (.put key val)

def delete (key : Bytes) : Prog Db Error Nat := commitMutation sh (.delete key)

/-- An empty or inverted range is a no-op. -/
def deleteRange (start stop : Bytes) : Prog Db Error Nat := do
  ensureOpen
  let db ← Prog.get
  if start ≥ stop then return db.nextSeq else commitMutation sh (.rangeDelete start stop)

def putWithTtl (key val : Bytes) (expireAt : UInt64) : Prog Db Error Nat := commitMutation sh (.putTtl key val expireAt)

/-- The appends of a batch, each rolled back when it fails. -/
def stageOps (mark : StageMark) : Nat → List BatchOp → Prog Db Error Unit
  | _, [] => pure ()
  | seq, op :: ops => do
    stageAppend mark (op.append sh seq (!ops.isEmpty))
    stageOps mark (seq + 1) ops

/-- The capacity check of `write`, up front for the whole batch. -/
def checkBatch (t : MemTable) (ops : List BatchOp) : Except Error Unit :=
  let needArena := (ops.map fun op => op.key.length + op.val.length).sum
  let needWal := (ops.map BatchOp.needWal).sum
  if needWal > sh.BLOCK then .error (.batchTooLarge needWal sh.BLOCK)
  else if t.len + ops.length > sh.CAP then .error .tableFull
  else if t.arenaLen + needArena > sh.ARENA then .error .arenaFull
  else .ok ()

/-- Applies a batch atomically; returns the sequence number of its first operation. -/
def write (batch : WriteBatch sh) : Prog Db Error Nat := do
  ensureOpen
  let db ← Prog.get
  if batch.ops = [] then return db.nextSeq
  else
    Prog.ofExcept (checkBatch sh db.table batch.ops)
    -- Drain what an earlier call left staged: the batch commits as one block write.
    if db.wal.stagedBytes > 0 then onWal WalWriter.commit
    if db.nextSeq + batch.ops.length > U64_MAX then Prog.throw .counterExhausted
    else
      let base := db.nextSeq + 1
      let db ← Prog.get
      let mark := db.stageMark
      stageOps sh mark base batch.ops
      commitStaged mark batch.ops.length
      Prog.modify fun db => { db with nextSeq := base + (batch.ops.length - 1) }
      let table ← Prog.ofExcept (insertOps sh base batch.ops db.table)
      Prog.modify fun db => { db with table := table }
      return base

end Db

end Horton
