import Horton.Db.Write
import Horton.Wal.Replay

/-!
# What a mutating call does

A call of `put`, `put_with_ttl`, `delete`, `delete_range` or `write` is one group of operations.  `CallEnd` lists the ways
it ends on an open handle with nothing staged: refused before it reaches the device, stopped by the device at its one
block write or at the barrier behind it, or acknowledged with the whole group in the memtable.
-/

namespace Horton

open BlockDev GroupLog

inductive Call (sh : Shape)
  | put (key val : Bytes)
  | putWithTtl (key val : Bytes) (expireAt : UInt64)
  | delete (key : Bytes)
  | deleteRange (start stop : Bytes)
  | write (batch : WriteBatch sh)

namespace Call

variable {sh : Shape}

def run : Call sh → Prog Db Error Nat
  | put key val => Db.put sh key val
  | putWithTtl key val expireAt => Db.putWithTtl sh key val expireAt
  | delete key => Db.delete sh key
  | deleteRange start stop => Db.deleteRange sh start stop
  | write batch => Db.write sh batch

/-- The operations of a call; an empty or inverted range has none. -/
def ops : Call sh → List BatchOp
  | put key val => [(Mutation.put key val).op]
  | putWithTtl key val expireAt => [(Mutation.putTtl key val expireAt).op]
  | delete key => [(Mutation.delete key).op]
  | deleteRange start stop => if start ≥ stop then [] else [(Mutation.rangeDelete start stop).op]
  | write batch => batch.ops

end Call

variable {sh : Shape} {db db' : Db} {d d' : Device} {ops : List BatchOp} {t : MemTable}

/-! ### Inserts are replays -/

theorem Mutation.append_eq (m : Mutation) (seq : Nat) : m.append sh seq = m.op.append sh seq false := by
  cases m <;> rfl

theorem Mutation.insert_eq (m : Mutation) (t : MemTable) (seq : Nat) : m.insert sh t seq = m.op.insert sh t seq := by
  cases m <;> rfl

/-- The check of a mutation is the plan of its insert. -/
theorem Mutation.insert_of_check {m : Mutation} (h : m.check sh t = .ok ()) (seq : Nat) :
    ∃ t', m.insert sh t seq = .ok t' := by
  have hbind : ∀ {x : Except Error Plan} {f : Plan → MemTable}, (x >>= fun _ => pure ()) = Except.ok () →
      ∃ t', (x >>= fun p => pure (f p)) = Except.ok t' := by
    intro x f hx
    cases x with
    | error e => cases hx
    | ok p => exact ⟨f p, rfl⟩
  cases m <;> exact hbind h

/-- A tombstone stores no value. -/
theorem MemTable.insert_delete (key val : Bytes) (seq : Nat) : t.insert sh key val seq true = t.insert sh key [] seq true := by
  have hplan : t.plan sh key val true = t.plan sh key [] true := rfl
  unfold MemTable.insert
  rw [hplan]
  cases hp : t.plan sh key [] true with
  | error e => rfl
  | ok p =>
    have hv : p.valLen = 0 := by
      rw [(MemTable.plan_ok hp).1.eq]
      rfl
    show Except.ok (t.apply p key val seq true false 0) = Except.ok (t.apply p key [] seq true false 0)
    simp [MemTable.apply, hv]

/-- The insert of an operation is the replay of its record. -/
theorem BatchOp.insert_eq (op : BatchOp) (seq : Nat) (more : Bool) :
    op.insert sh t seq = WalWriter.replayRecord sh t (op.record seq more) := by
  have htake : op.val.take op.val.length = op.val := List.take_length
  unfold BatchOp.insert WalWriter.replayRecord BatchOp.record appendedRecord
  cases hk : op.kind with
  | put => simp [htake]
  | delete => simpa using MemTable.insert_delete op.key op.val seq
  | rangeDelete => simp [htake]
  | putTtl =>
    by_cases he : op.expireAt = 0
    · simp only [he, and_true, if_true, reduceCtorEq, if_false, htake]
      rfl
    · simp [he, htake]

theorem insertOps_eq (seq : Nat) (ops : List BatchOp) (t : MemTable) :
    insertOps sh seq ops t = replayAll sh t (groupRecords seq ops) := by
  induction ops generalizing seq t with
  | nil => rfl
  | cons op ops ih =>
    rw [insertOps, op.insert_eq seq (!ops.isEmpty), groupRecords, replayAll, List.foldlM_cons]
    exact bind_congr fun t' => ih (seq + 1) t'

/-! ### The check up front is enough -/

/-- An insert that was planned takes one slot and its bytes. -/
private theorem apply_sizes {p : Plan} {key val : Bytes} {valLen : Nat} (hp : MemTable.Planned sh t p key valLen)
    (hv : valLen ≤ val.length) (seq : Nat) (tombstone rangeDel : Bool) (expireAt : Nat) :
    (t.apply p key val seq tombstone rangeDel expireAt).len ≤ t.len + 1 ∧
      (t.apply p key val seq tombstone rangeDel expireAt).arenaLen = t.arenaLen + (key.length + valLen) := by
  obtain ⟨rfl, -, -⟩ := hp
  constructor
  · simp only [MemTable.apply, MemTable.len, List.length_append, List.length_take, List.length_cons, List.length_drop]
    omega
  · simp only [MemTable.apply, MemTable.arenaLen, List.length_append, List.length_take]
    omega

/-- A valid operation fits a table with a free slot and room for its bytes. -/
theorem BatchOp.insert_ok {op : BatchOp} (hop : op.Valid sh) (h1 : t.len < sh.CAP)
    (h2 : t.arenaLen + (op.key.length + op.val.length) ≤ sh.ARENA) (seq : Nat) :
    ∃ t', op.insert sh t seq = .ok t' ∧ t'.len ≤ t.len + 1 ∧
      t'.arenaLen ≤ t.arenaLen + (op.key.length + op.val.length) := by
  have hk := hop.key_le
  have hku : op.key.length ≤ U16_MAX := hk.trans sh.assertKey.2
  have hvu : op.val.length ≤ U16_MAX := hop.val_le.trans sh.assertVal
  have hne : op.key.isEmpty = false := by simpa using hop.key_pos
  have hpoint : ∀ tombstone, ∃ p, t.plan sh op.key op.val tombstone = .ok p := by
    intro tombstone
    have hv : (if tombstone = true then 0 else op.val.length) ≤ op.val.length := by split <;> omega
    have := hop.val_le
    unfold MemTable.plan
    dsimp only
    rw [hne, if_neg (by simp), if_neg (by omega), if_neg (by omega), if_neg (by omega), if_neg (by omega),
      MemTable.planAt_of_room h1 (by omega)]
    exact ⟨_, rfl⟩
  have hrange : op.kind = .rangeDelete → ∃ p, t.planRangeDel sh op.key op.val = .ok p := by
    intro hr
    obtain ⟨hlt, hvl⟩ := hop.range hr
    have hvne : op.val.isEmpty = false := by
      rw [List.isEmpty_eq_false_iff]
      rintro hnil
      rw [hnil] at hlt
      exact absurd hlt (List.not_lt_nil _)
    unfold MemTable.planRangeDel MemTable.checkBound
    rw [hne, hvne, if_neg (by simp), if_neg (by omega), if_neg (by simp), if_neg (by omega)]
    change ∃ p, (if op.key ≥ op.val then Except.error Error.emptyKey
      else t.planAt sh (t.lowerBound op.key) op.key.length op.val.length) = .ok p
    rw [if_neg (not_le.mpr hlt), MemTable.planAt_of_room h1 h2]
    exact ⟨_, rfl⟩
  unfold BatchOp.insert
  cases hkind : op.kind with
  | put =>
    obtain ⟨p, hp⟩ := hpoint false
    obtain ⟨h3, h4⟩ := apply_sizes (MemTable.plan_ok hp).1 (by simp : _ ≤ op.val.length) seq false false 0
    exact ⟨_, by rw [MemTable.insert, hp]; rfl, h3, h4.le⟩
  | delete =>
    obtain ⟨p, hp⟩ := hpoint true
    obtain ⟨h3, h4⟩ := apply_sizes (MemTable.plan_ok hp).1 (by simp : _ ≤ op.val.length) seq true false 0
    exact ⟨_, by simp only [MemTable.insert, hp]; rfl, h3, h4.le.trans (by simp)⟩
  | putTtl =>
    obtain ⟨p, hp⟩ := hpoint false
    obtain ⟨h3, h4⟩ := apply_sizes (MemTable.plan_ok hp).1 (by simp : _ ≤ op.val.length) seq false false op.expireAt
    exact ⟨_, by rw [MemTable.insertTtl, hp]; rfl, h3, h4.le⟩
  | rangeDelete =>
    obtain ⟨p, hp⟩ := hrange hkind
    obtain ⟨h3, h4⟩ := apply_sizes (MemTable.planRangeDel_ok hp).1 le_rfl seq true true 0
    exact ⟨_, by rw [MemTable.insertRangeDel, hp]; rfl, h3, h4.le⟩

theorem insertOps_ok (hops : ∀ op ∈ ops, op.Valid sh) (h1 : t.len + ops.length ≤ sh.CAP)
    (h2 : t.arenaLen + (ops.map fun op => op.key.length + op.val.length).sum ≤ sh.ARENA) (seq : Nat) :
    ∃ t', insertOps sh seq ops t = .ok t' := by
  induction ops generalizing seq t with
  | nil => exact ⟨t, rfl⟩
  | cons op ops ih =>
    rw [List.map_cons, List.sum_cons] at h2
    rw [List.length_cons] at h1
    obtain ⟨t₁, ht₁, hl, ha⟩ := BatchOp.insert_ok (hops op (by simp)) (t := t) (by omega) (by omega) seq
    obtain ⟨t', ht'⟩ := ih (fun o ho => hops o (by simp [ho])) (t := t₁) (by omega) (by omega) (seq + 1)
    exact ⟨t', by rw [insertOps, ht₁]; exact ht'⟩

/-! ### How a call ends -/

/-- The writer `n` blocks further on, with nothing staged. -/
structure Idle (sh : Shape) (w w' : WalWriter) (n : Nat) : Prop where
  stage : StageOk sh.BLOCK w' []
  nextBlock : w'.nextBlock = w.nextBlock + n
  walStart : w'.walStart = w.walStart
  walEnd : w'.walEnd = w.walEnd

/-- The records of a call that is made now. -/
def Db.group (db : Db) (ops : List BatchOp) : List Record := groupRecords (db.nextSeq + 1) ops

/-- A call whose group reaches its block write. -/
structure Landing (sh : Shape) (db : Db) (ops : List BatchOp) : Prop where
  ne : ops ≠ []
  seqs : db.nextSeq + ops.length ≤ U64_MAX
  room : db.wal.nextBlock < db.wal.walEnd
  fits : lens (db.group ops) ≤ sh.BLOCK
  wf : ∀ r ∈ db.group ops, r.WF

/-- The device while `data` goes to the append position: what of it is there. -/
def Db.torn (db : Db) (d : Device) (data : Bytes) (k : Nat) : Device :=
  (d.put db.wal.nextBlock data (Bytes.tear k data (d.blocks db.wal.nextBlock))).advance

/-- The device behind a block write and its barrier. -/
def Db.landed (db : Db) (d : Device) (data : Bytes) : Device := (d.put db.wal.nextBlock data data).advance.advance

/-- The device stops the commit of the staged records `rs`, at the block write or at the barrier. -/
inductive BlockStop (sh : Shape) (db : Db) (d : Device) (rs : List Record) (n : Nat) :
    Outcome Error Nat → Db → Device → Prop
  | failed {k w} (hf : d.fate = .fail k) (hw : Idle sh db.wal w 0) :
      BlockStop sh db d rs n (.err .device) { db with wal := w } (db.torn d (blockOf sh.BLOCK rs) k)
  | cut {k db'} (hf : d.fate = .cut k) : BlockStop sh db d rs n .cut db' (db.torn d (blockOf sh.BLOCK rs) k)
  | dropped {k w} (hf : d.fate = .drop k) (hst : StageOk sh.BLOCK w rs) (hn : w.nextBlock = db.wal.nextBlock)
      (hs : w.walStart = db.wal.walStart) (he : w.walEnd = db.wal.walEnd) :
      BlockStop sh db d rs n .dropped { db with wal := w } (db.torn d (blockOf sh.BLOCK rs) k)
  | unflushed {k w} (hok : d.fate = .ok) (hf : d.advance.fate = .fail k) (hw : Idle sh db.wal w 1) :
      BlockStop sh db d rs n (.err .device) { db with wal := w, nextSeq := db.nextSeq + n }
        (db.landed d (blockOf sh.BLOCK rs))
  | unflushedCut {k db'} (hok : d.fate = .ok) (hf : d.advance.fate = .cut k) :
      BlockStop sh db d rs n .cut db' (db.landed d (blockOf sh.BLOCK rs))
  | unflushedDropped {k w} (hok : d.fate = .ok) (hf : d.advance.fate = .drop k) (hw : Idle sh db.wal w 1) :
      BlockStop sh db d rs n .dropped { db with wal := w } (db.landed d (blockOf sh.BLOCK rs))

/-- How a call with these operations ends. -/
inductive CallEnd (sh : Shape) (db : Db) (d : Device) (ops : List BatchOp) : Outcome Error Nat → Db → Device → Prop
  | nothing (h : ops = []) : CallEnd sh db d ops (.ok db.nextSeq) db d
  | refused {e w} (hw : Idle sh db.wal w 0) : CallEnd sh db d ops (.err e) { db with wal := w } d
  | stopped {o db' d'} (hl : Landing sh db ops) (h : BlockStop sh db d (db.group ops) ops.length o db' d') :
      CallEnd sh db d ops o db' d'
  | done {w t} (hl : Landing sh db ops) (h1 : d.fate = .ok) (h2 : d.advance.fate = .ok) (hw : Idle sh db.wal w 1)
      (ht : replayAll sh db.table (db.group ops) = .ok t) :
      CallEnd sh db d ops (.ok (db.nextSeq + 1))
        { db with wal := w, nextSeq := db.nextSeq + ops.length, table := t }
        (db.landed d (blockOf sh.BLOCK (db.group ops)))

/-! ### Staging and committing a group -/

namespace Db

variable {rs : List Record}

/-- The writer of a handle with nothing staged is idle. -/
theorem idle_truncate {w : WalWriter} (h : StageOk sh.BLOCK w rs) : Idle sh w (w.truncateStage 0) 0 := by
  have h' : StageOk sh.BLOCK w ([] ++ rs) := by simpa using h
  exact ⟨h'.truncate, rfl, rfl, rfl⟩

/-- A failure before a block landed drops what was staged behind the mark. -/
theorem wp_failCommit {α : Type} {mark : StageMark} (hw : db.wal.nextBlock = mark.nextBlock) (n : Nat) (e : Error)
    {Q : Outcome Error α → Db → Device → Prop} (hQ : Q (.err e) { db with wal := db.wal.truncateStage mark.stageLen } d) :
    (failCommit mark n e).wp Q db d := by
  rw [failCommit, Prog.wp_bind, rollbackCommit, Prog.wp_bind, Prog.wp_get, Prog.andThen_ok, if_pos hw, Prog.wp_set,
    Prog.andThen_ok, Prog.wp_throw]
  exact hQ

/-- A record that fits behind the staged ones is staged, or everything staged goes. -/
theorem stageAppend_spec (h : StageOk sh.BLOCK db.wal rs) (op : BatchOp) (seq : Nat) (more : Bool)
    (hfit : lens rs + (op.record seq more).len ≤ sh.BLOCK) :
    (stageAppend ⟨0, db.wal.nextBlock⟩ (op.append sh seq more)).wp (fun o db' d' => d' = d ∧ match o with
      | .ok _ => db' = { db with wal := db.wal.stageRecord (op.record seq more) } ∧
          (op.record seq more).key.length ≤ U16_MAX ∧ (op.record seq more).val.length ≤ U16_MAX
      | .err _ => db' = { db with wal := db.wal.truncateStage 0 }
      | _ => False) db d := by
  rw [stageAppend, Prog.wp_bind, Prog.wp_attempt, onWal, Prog.wp_zoom]
  refine Prog.wp_mono (op.append_spec h seq more) ?_
  intro o w' d' hp
  cases o with
  | ok x =>
    obtain ⟨hk, hv, -, ⟨-, rfl, rfl⟩ | ⟨hlt, -⟩⟩ := hp
    · exact ⟨rfl, rfl, hk, hv⟩
    · omega
  | err e =>
    rcases hp with ⟨rfl, rfl⟩ | ⟨hlt, -⟩
    · dsimp only [Prog.andThen_ok]
      exact wp_failCommit rfl 0 e ⟨rfl, rfl⟩
    · omega
  | cut => exact absurd hp.1 (by omega)
  | dropped => exact absurd hp.1 (by omega)

/-- A group that fits the buffer is staged, or nothing is. -/
theorem stageOps_spec (ops : List BatchOp) (n : Nat) (h : StageOk sh.BLOCK db.wal rs)
    (hfit : lens rs + lens (groupRecords n ops) ≤ sh.BLOCK) :
    (stageOps sh ⟨0, db.wal.nextBlock⟩ n ops).wp (fun o db' d' => d' = d ∧ ∃ w, db' = { db with wal := w } ∧
      w.nextBlock = db.wal.nextBlock ∧ w.walStart = db.wal.walStart ∧ w.walEnd = db.wal.walEnd ∧ match o with
      | .ok _ => StageOk sh.BLOCK w (rs ++ groupRecords n ops) ∧
          ∀ r ∈ groupRecords n ops, r.key.length ≤ U16_MAX ∧ r.val.length ≤ U16_MAX
      | .err _ => StageOk sh.BLOCK w []
      | _ => False) db d := by
  induction ops generalizing n rs db with
  | nil =>
    rw [stageOps, Prog.wp_pure]
    exact ⟨rfl, db.wal, rfl, rfl, rfl, rfl, by simpa [groupRecords] using h, by simp [groupRecords]⟩
  | cons op ops ih =>
    rw [groupRecords, lens_cons] at hfit
    rw [stageOps, Prog.wp_bind]
    refine Prog.wp_mono (stageAppend_spec h op n (!ops.isEmpty) (by omega)) ?_
    rintro o db' d' ⟨rfl, hp⟩
    cases o with
    | err e =>
      subst hp
      have hi := idle_truncate h
      exact ⟨rfl, _, rfl, hi.nextBlock, hi.walStart, hi.walEnd, hi.stage⟩
    | cut => exact hp.elim
    | dropped => exact hp.elim
    | ok x =>
      obtain ⟨rfl, hk, hv⟩ := hp
      have hst := h.stageRecord (r := op.record n (!ops.isEmpty)) (by omega)
      rw [Prog.andThen_ok]
      have hrest := @ih { db with wal := db.wal.stageRecord (op.record n (!ops.isEmpty)) } _ (n + 1) hst
        (by rw [lens_append, lens_cons, lens_nil]; omega)
      refine Prog.wp_mono hrest ?_
      rintro o' db'' d'' ⟨rfl, w, rfl, h1, h2, h3, h4⟩
      refine ⟨rfl, w, rfl, h1, h2, h3, ?_⟩
      cases o' with
      | ok x =>
        refine ⟨by simpa [groupRecords] using h4.1, ?_⟩
        intro r hr
        rcases List.mem_cons.mp hr with rfl | hr
        · exact ⟨hk, hv⟩
        · exact h4.2 r hr
      | err e => exact h4
      | cut => exact h4
      | dropped => exact h4

/-- How the commit of staged records ends: they land, the region is full, or the device stops it. -/
def CommitEnd (sh : Shape) (db : Db) (d : Device) (rs : List Record) (n : Nat) :
    Outcome Error Unit → Db → Device → Prop
  | .ok _, db', d' => db.wal.nextBlock < db.wal.walEnd ∧ d.fate = .ok ∧ d.advance.fate = .ok ∧
      (∃ w, Idle sh db.wal w 1 ∧ db' = { db with wal := w }) ∧ d' = db.landed d (blockOf sh.BLOCK rs)
  | .err e, db', d' => (d' = d ∧ ∃ w, Idle sh db.wal w 0 ∧ db' = { db with wal := w }) ∨
      (db.wal.nextBlock < db.wal.walEnd ∧ BlockStop sh db d rs n (.err e) db' d')
  | .cut, db', d' => db.wal.nextBlock < db.wal.walEnd ∧ BlockStop sh db d rs n .cut db' d'
  | .dropped, db', d' => db.wal.nextBlock < db.wal.walEnd ∧ BlockStop sh db d rs n .dropped db' d'

/-- A commit that failed before its block landed drops what was staged. -/
private theorem wp_failCommit_same {w : WalWriter} (hw : w.nextBlock = db.wal.nextBlock) (n : Nat) (e : Error)
    {Q : Outcome Error Unit → Db → Device → Prop} (hQ : Q (.err e) { db with wal := w.truncateStage 0 } d) :
    (Prog.get >>= fun db' : Db => failCommit ⟨0, db.wal.nextBlock⟩
      (if db'.wal.nextBlock ≠ db.wal.nextBlock then n else 0) e).wp Q { db with wal := w } d := by
  rw [Prog.wp_bind, Prog.wp_get, Prog.andThen_ok]
  exact wp_failCommit hw _ e hQ

/-- One that failed behind its block consumes the numbers. -/
private theorem wp_failCommit_moved {w : WalWriter} (hw : w.nextBlock ≠ db.wal.nextBlock) {n : Nat}
    (hn : db.nextSeq + n ≤ U64_MAX) (e : Error) {Q : Outcome Error Unit → Db → Device → Prop}
    (hQ : Q (.err e) { db with wal := w, nextSeq := db.nextSeq + n } d) :
    (Prog.get >>= fun db' : Db => failCommit ⟨0, db.wal.nextBlock⟩
      (if db'.wal.nextBlock ≠ db.wal.nextBlock then n else 0) e).wp Q { db with wal := w } d := by
  rw [Prog.wp_bind, Prog.wp_get, Prog.andThen_ok, if_pos hw, failCommit, Prog.wp_bind, rollbackCommit, Prog.wp_bind,
    Prog.wp_get, Prog.andThen_ok, if_neg hw, if_neg (by show ¬ db.nextSeq + n > U64_MAX; omega), Prog.wp_set,
    Prog.andThen_ok, Prog.wp_throw]
  exact hQ

/-- How the writer's own commit ends. -/
theorem commit_spec {w : WalWriter} (h : StageOk sh.BLOCK w rs) (hne : rs ≠ []) :
    WalWriter.commit.wp (fun o w' d' => (o = .err .walFull ∧ w' = w ∧ d' = d) ∨ (w.nextBlock < w.walEnd ∧
      ((∃ k, w' = w.sealed ∧
          d' = (d.put w.nextBlock (blockOf sh.BLOCK rs)
            (Bytes.tear k (blockOf sh.BLOCK rs) (d.blocks w.nextBlock))).advance ∧
          ((d.fate = .fail k ∧ o = .err .device) ∨ (d.fate = .cut k ∧ o = .cut) ∨ (d.fate = .drop k ∧ o = .dropped))) ∨
        (d.fate = .ok ∧ w' = w.wrote ∧
          d' = (d.put w.nextBlock (blockOf sh.BLOCK rs) (blockOf sh.BLOCK rs)).advance.advance ∧
          ((d.advance.fate = .ok ∧ o = .ok ()) ∨ ∃ k, (d.advance.fate = .fail k ∧ o = .err .device) ∨
            (d.advance.fate = .cut k ∧ o = .cut) ∨ (d.advance.fate = .drop k ∧ o = .dropped)))))) w d := by
  have hpos : w.stageLen > 0 := by
    rw [h.stageLen_eq]
    exact Nat.pos_of_ne_zero fun h0 => hne (lens_eq_zero.mp h0)
  rw [wp_commit, if_pos hpos, wp_writeStage, h.padded_eq]
  split
  · exact Or.inl ⟨rfl, rfl, rfl⟩
  · rename_i hnext
    have hroom : w.nextBlock < w.walEnd := by omega
    cases hf : d.fate with
    | fail k => exact Or.inr ⟨hroom, Or.inl ⟨k, rfl, rfl, Or.inl ⟨rfl, rfl⟩⟩⟩
    | cut k => exact Or.inr ⟨hroom, Or.inl ⟨k, rfl, rfl, Or.inr (Or.inl ⟨rfl, rfl⟩)⟩⟩
    | drop k => exact Or.inr ⟨hroom, Or.inl ⟨k, rfl, rfl, Or.inr (Or.inr ⟨rfl, rfl⟩)⟩⟩
    | ok =>
      dsimp only
      rw [Prog.andThen_ok, Prog.wp_flush]
      have hfate : (d.put w.nextBlock (blockOf sh.BLOCK rs) (blockOf sh.BLOCK rs)).advance.fate = d.advance.fate := rfl
      rw [hfate]
      cases hf2 : d.advance.fate with
      | ok => exact Or.inr ⟨hroom, Or.inr ⟨rfl, rfl, rfl, Or.inl ⟨rfl, rfl⟩⟩⟩
      | fail k => exact Or.inr ⟨hroom, Or.inr ⟨rfl, rfl, rfl, Or.inr ⟨k, Or.inl ⟨rfl, rfl⟩⟩⟩⟩
      | cut k => exact Or.inr ⟨hroom, Or.inr ⟨rfl, rfl, rfl, Or.inr ⟨k, Or.inr (Or.inl ⟨rfl, rfl⟩)⟩⟩⟩
      | drop k => exact Or.inr ⟨hroom, Or.inr ⟨rfl, rfl, rfl, Or.inr ⟨k, Or.inr (Or.inr ⟨rfl, rfl⟩)⟩⟩⟩

theorem commitStaged_spec (h : StageOk sh.BLOCK db.wal rs) (hne : rs ≠ []) {n : Nat} (hn : db.nextSeq + n ≤ U64_MAX) :
    (commitStaged ⟨0, db.wal.nextBlock⟩ n).wp (CommitEnd sh db d rs n) db d := by
  have hwrote : Idle sh db.wal db.wal.wrote 1 := ⟨h.wrote, rfl, rfl, rfl⟩
  have hmoved : db.wal.wrote.nextBlock ≠ db.wal.nextBlock := by
    show db.wal.nextBlock + 1 ≠ db.wal.nextBlock
    omega
  rw [commitStaged, Prog.wp_bind, Prog.wp_attempt, onWal, Prog.wp_zoom]
  refine Prog.wp_mono (commit_spec h hne) ?_
  rintro o w' d' (⟨rfl, rfl, rfl⟩ | ⟨hroom, ⟨k, rfl, rfl, hf⟩ | ⟨hok, rfl, rfl, hf⟩⟩)
  · dsimp only [Prog.andThen_ok]
    exact wp_failCommit_same (w := db.wal) rfl n .walFull (Or.inl ⟨rfl, _, idle_truncate h, rfl⟩)
  · rcases hf with ⟨hf, rfl⟩ | ⟨hf, rfl⟩ | ⟨hf, rfl⟩
    · have hi := idle_truncate h.sealed
      dsimp only [Prog.andThen_ok]
      exact wp_failCommit_same (w := db.wal.sealed) rfl n .device
        (Or.inr ⟨hroom, .failed hf ⟨hi.stage, hi.nextBlock, hi.walStart, hi.walEnd⟩⟩)
    · exact ⟨hroom, .cut hf⟩
    · exact ⟨hroom, .dropped hf h.sealed rfl rfl rfl⟩
  · rcases hf with ⟨hf, rfl⟩ | ⟨k, ⟨hf, rfl⟩ | ⟨hf, rfl⟩ | ⟨hf, rfl⟩⟩
    · exact ⟨hroom, hok, hf, ⟨_, hwrote, rfl⟩, rfl⟩
    · dsimp only [Prog.andThen_ok]
      exact wp_failCommit_moved hmoved hn .device (Or.inr ⟨hroom, .unflushed hok hf hwrote⟩)
    · exact ⟨hroom, .unflushedCut hok hf⟩
    · exact ⟨hroom, .unflushedDropped hok hf hwrote⟩

/-! ### The calls -/

/-- A writer with a group staged, `rs` behind an empty buffer. -/
structure Staged (sh : Shape) (w w' : WalWriter) (rs : List Record) : Prop where
  stage : StageOk sh.BLOCK w' rs
  nextBlock : w'.nextBlock = w.nextBlock
  walStart : w'.walStart = w.walStart
  walEnd : w'.walEnd = w.walEnd

private theorem Staged.idle {w w' w'' : WalWriter} {n : Nat} (h : Staged sh w w' rs) (hi : Idle sh w' w'' n) :
    Idle sh w w'' n :=
  ⟨hi.stage, by rw [hi.nextBlock, h.nextBlock], hi.walStart.trans h.walStart, hi.walEnd.trans h.walEnd⟩

private theorem torn_with {w : WalWriter} (h : w.nextBlock = db.wal.nextBlock) (data : Bytes) (k : Nat) :
    Db.torn { db with wal := w } d data k = db.torn d data k := by
  simp only [Db.torn, h]

private theorem landed_with {w : WalWriter} (h : w.nextBlock = db.wal.nextBlock) (data : Bytes) :
    Db.landed { db with wal := w } d data = db.landed d data := by
  simp only [Db.landed, h]

/-- What was staged before the block write is of no matter once the device stopped it. -/
private theorem Staged.blockStop {w : WalWriter} {n : Nat} {o : Outcome Error Nat} (h : Staged sh db.wal w rs)
    (hs : BlockStop sh { db with wal := w } d rs n o db' d') : BlockStop sh db d rs n o db' d' := by
  have hn := h.nextBlock
  cases hs with
  | failed hf hw =>
    rw [torn_with hn]
    exact .failed hf (h.idle hw)
  | cut hf =>
    rw [torn_with hn]
    exact .cut hf
  | dropped hf hst h1 h2 h3 =>
    rw [torn_with hn]
    exact .dropped hf hst (h1.trans hn) (h2.trans h.walStart) (h3.trans h.walEnd)
  | unflushed hok hf hw =>
    rw [landed_with hn]
    exact .unflushed hok hf (h.idle hw)
  | unflushedCut hok hf =>
    rw [landed_with hn]
    exact .unflushedCut hok hf
  | unflushedDropped hok hf hw =>
    rw [landed_with hn]
    exact .unflushedDropped hok hf (h.idle hw)

/-- The end of every call: the staged group is committed, numbered and inserted. -/
private theorem finish_spec {w : WalWriter} (h : Staged sh db.wal w (db.group ops)) (hne : ops ≠ [])
    (hseq : db.nextSeq + ops.length ≤ U64_MAX)
    (hlen : ∀ r ∈ db.group ops, r.key.length ≤ U16_MAX ∧ r.val.length ≤ U16_MAX)
    (hins : ∃ t, replayAll sh db.table (db.group ops) = .ok t) {x : Except Error MemTable}
    (hx : x = replayAll sh db.table (db.group ops)) {seq : Nat} (hs : seq = db.nextSeq + ops.length) :
    (do
      commitStaged ⟨0, db.wal.nextBlock⟩ ops.length
      Prog.modify fun db => { db with nextSeq := seq }
      let table ← Prog.ofExcept x
      Prog.modify fun db => { db with table := table }
      return db.nextSeq + 1 : Prog Db Error Nat).wp (CallEnd sh db d ops) { db with wal := w } d := by
  have hrs : db.group ops ≠ [] := by
    intro h0
    have hl := length_groupRecords (db.nextSeq + 1) ops
    rw [show groupRecords (db.nextSeq + 1) ops = [] from h0] at hl
    exact hne (List.length_eq_zero_iff.mp hl.symm)
  have hland : db.wal.nextBlock < db.wal.walEnd → Landing sh db ops := by
    intro hroom
    refine ⟨hne, hseq, hroom, h.stage.fits, ?_⟩
    intro r hr
    obtain ⟨op, more, hrec⟩ := mem_groupRecords hr
    have hb := (numbered_groupRecords db.nextSeq ops).bounds r hr
    rw [length_groupRecords] at hb
    obtain ⟨hk, hv⟩ := hlen r hr
    have hlt : r.seq < 2 ^ 64 := by
      rw [U64_MAX] at hseq
      omega
    rw [hrec] at hk hv ⊢
    exact BatchOp.record_wf hlt hk hv
  rw [Prog.wp_bind]
  have hcommit : (commitStaged ⟨0, db.wal.nextBlock⟩ ops.length).wp
      (CommitEnd sh { db with wal := w } d (db.group ops) ops.length) { db with wal := w } d := by
    rw [← h.nextBlock]
    exact @commitStaged_spec sh { db with wal := w } d _ h.stage hrs _ hseq
  refine Prog.wp_mono hcommit ?_
  intro o db' d' hp
  cases o with
  | ok u =>
    obtain ⟨hroom, h1, h2, ⟨w', hw', rfl⟩, rfl⟩ := hp
    obtain ⟨t, ht⟩ := hins
    rw [Prog.andThen_ok, Prog.wp_bind, Prog.wp_modify, Prog.andThen_ok, Prog.wp_bind, hx, ht, Prog.wp_ofExcept_ok,
      Prog.andThen_ok, Prog.wp_bind, Prog.wp_modify, Prog.andThen_ok, Prog.wp_pure, landed_with h.nextBlock, hs]
    exact .done (hland (by rw [← h.nextBlock, ← h.walEnd]; exact hroom)) h1 h2 (h.idle hw') ht
  | err e =>
    rcases hp with ⟨rfl, w', hw', rfl⟩ | ⟨hroom, hp⟩
    · exact .refused (h.idle hw')
    · exact .stopped (hland (by rw [← h.nextBlock, ← h.walEnd]; exact hroom)) (h.blockStop hp)
  | cut => exact .stopped (hland (by rw [← h.nextBlock, ← h.walEnd]; exact hp.1)) (h.blockStop hp.2)
  | dropped => exact .stopped (hland (by rw [← h.nextBlock, ← h.walEnd]; exact hp.1)) (h.blockStop hp.2)

theorem wp_ensureOpen (Q : Outcome Error Unit → Db → Device → Prop) :
    ensureOpen.wp Q db d ↔ if db.opened then Q (.ok ()) db d else Q (.err .notOpen) db d := by
  rw [ensureOpen, Prog.wp_bind, Prog.wp_get, Prog.andThen_ok]
  split <;> rfl

theorem checkBatch_ok (h : checkBatch sh t ops = .ok ()) : (ops.map BatchOp.needWal).sum ≤ sh.BLOCK ∧
    t.len + ops.length ≤ sh.CAP ∧ t.arenaLen + (ops.map fun op => op.key.length + op.val.length).sum ≤ sh.ARENA := by
  unfold checkBatch at h
  dsimp only at h
  split_ifs at h
  exact ⟨by omega, by omega, by omega⟩

/-- A refusal that leaves the handle as it is. -/
private theorem refused_same (hst : StageOk sh.BLOCK db.wal []) (e : Error) : CallEnd sh db d ops (.err e) db d :=
  .refused (w := db.wal) ⟨hst, rfl, rfl, rfl⟩

theorem commitMutation_spec (hopen : db.opened = true) (hst : StageOk sh.BLOCK db.wal []) (m : Mutation) :
    (commitMutation sh m).wp (CallEnd sh db d [m.op]) db d := by
  rw [commitMutation, Prog.wp_bind, wp_ensureOpen, if_pos hopen, Prog.andThen_ok, Prog.wp_bind, Prog.wp_get,
    Prog.andThen_ok, Prog.wp_bind]
  cases hcheck : m.check sh db.table with
  | error e => exact refused_same hst e
  | ok u =>
    rw [Prog.wp_ofExcept_ok, Prog.andThen_ok]
    split
    · exact refused_same hst .counterExhausted
    · rename_i hseq
      have hmark : db.stageMark = ⟨0, db.wal.nextBlock⟩ := by
        simp only [stageMark, WalWriter.stagedBytes, hst.stageLen_eq, lens_nil]
      have hrs : db.group [m.op] = [m.op.record (db.nextSeq + 1) false] := rfl
      dsimp only
      rw [Prog.wp_bind, hmark, m.append_eq]
      by_cases hfit : (m.op.record (db.nextSeq + 1) false).len ≤ sh.BLOCK
      swap
      · rw [stageAppend, Prog.wp_bind, Prog.wp_attempt, onWal, Prog.wp_zoom]
        refine Prog.wp_mono (BatchOp.append_long (not_le.mp hfit)) ?_
        rintro o w' d' ⟨⟨e, rfl⟩, rfl, rfl⟩
        dsimp only [Prog.andThen_ok]
        exact wp_failCommit rfl 0 e (.refused (idle_truncate hst))
      refine Prog.wp_mono (stageAppend_spec hst m.op (db.nextSeq + 1) false (by simpa using hfit)) ?_
      rintro o db' d' ⟨rfl, hp⟩
      cases o with
      | err e =>
        subst hp
        exact .refused (idle_truncate hst)
      | cut => exact hp.elim
      | dropped => exact hp.elim
      | ok x =>
        obtain ⟨rfl, hk, hv⟩ := hp
        rw [Prog.andThen_ok]
        have hreplay : m.insert sh db.table (db.nextSeq + 1) = replayAll sh db.table (db.group [m.op]) := by
          rw [m.insert_eq, Db.group, ← insertOps_eq]
          show _ = m.op.insert sh db.table (db.nextSeq + 1) >>= fun t => pure t
          rw [bind_pure]
        have hstaged : Staged sh db.wal (db.wal.stageRecord (m.op.record (db.nextSeq + 1) false)) (db.group [m.op]) :=
          ⟨hst.stageRecord (by simpa using hfit), rfl, rfl, rfl⟩
        refine finish_spec hstaged (by simp) (by rw [List.length_singleton]; omega) ?_ ?_ hreplay rfl
        · intro r hr
          obtain rfl := List.mem_singleton.mp (hrs ▸ hr)
          exact ⟨hk, hv⟩
        · rw [← hreplay]
          exact Mutation.insert_of_check hcheck _

/-- The group of a batch that passed its check, on a handle with nothing staged. -/
theorem writeGroup_spec (hst : StageOk sh.BLOCK db.wal []) (hne : ops ≠ []) (hops : ∀ op ∈ ops, op.Valid sh)
    (hseq : db.nextSeq + ops.length ≤ U64_MAX) (hcheck : checkBatch sh db.table ops = .ok ()) :
    (do
      stageOps sh db.stageMark (db.nextSeq + 1) ops
      commitStaged db.stageMark ops.length
      Prog.modify fun db' => { db' with nextSeq := db.nextSeq + 1 + (ops.length - 1) }
      let table ← Prog.ofExcept (insertOps sh (db.nextSeq + 1) ops db.table)
      Prog.modify fun db => { db with table := table }
      return db.nextSeq + 1 : Prog Db Error Nat).wp (CallEnd sh db d ops) db d := by
  have hmark : db.stageMark = ⟨0, db.wal.nextBlock⟩ := by
    simp only [stageMark, WalWriter.stagedBytes, hst.stageLen_eq, lens_nil]
  obtain ⟨hwal, hslots, harena⟩ := checkBatch_ok hcheck
  have hfit : lens (db.group ops) ≤ sh.BLOCK := (lens_groupRecords_le _ _).trans hwal
  rw [hmark, Prog.wp_bind]
  refine Prog.wp_mono (stageOps_spec ops (db.nextSeq + 1) hst (by simpa [Db.group] using hfit)) ?_
  rintro o db' d' ⟨rfl, w, rfl, h1, h2, h3, h4⟩
  cases o with
  | err e => exact .refused ⟨h4, h1, h2, h3⟩
  | cut => exact h4.elim
  | dropped => exact h4.elim
  | ok x =>
    rw [Prog.andThen_ok]
    have hstaged : Staged sh db.wal w (db.group ops) := ⟨h4.1, h1, h2, h3⟩
    have hpos := List.length_pos_iff.mpr hne
    refine finish_spec hstaged hne hseq h4.2 ?_ (insertOps_eq _ _ _) (by omega)
    rw [Db.group, ← insertOps_eq]
    exact insertOps_ok hops hslots harena _

theorem write_spec (hopen : db.opened = true) (hst : StageOk sh.BLOCK db.wal []) (batch : WriteBatch sh) :
    (write sh batch).wp (CallEnd sh db d batch.ops) db d := by
  rw [write, Prog.wp_bind, wp_ensureOpen, if_pos hopen, Prog.andThen_ok, Prog.wp_bind, Prog.wp_get, Prog.andThen_ok]
  split
  · rename_i hnil
    exact .nothing hnil
  rename_i hne
  rw [Prog.wp_bind]
  cases hcheck : checkBatch sh db.table batch.ops with
  | error e => exact refused_same hst e
  | ok u =>
    rw [Prog.wp_ofExcept_ok, Prog.andThen_ok, if_neg (by simp [WalWriter.stagedBytes, hst.stageLen_eq])]
    split
    · exact refused_same hst .counterExhausted
    · dsimp only
      rw [Prog.wp_bind, Prog.wp_get, Prog.andThen_ok]
      exact writeGroup_spec hst hne batch.valid (by omega) hcheck

theorem deleteRange_spec (hopen : db.opened = true) (hst : StageOk sh.BLOCK db.wal []) (start stop : Bytes) :
    (deleteRange sh start stop).wp
      (CallEnd sh db d (if start ≥ stop then [] else [(Mutation.rangeDelete start stop).op])) db d := by
  rw [deleteRange, Prog.wp_bind, wp_ensureOpen, if_pos hopen, Prog.andThen_ok, Prog.wp_bind, Prog.wp_get, Prog.andThen_ok]
  by_cases h : start ≥ stop
  · rw [if_pos h, if_pos h]
    exact .nothing rfl
  · rw [if_neg h, if_neg h]
    exact commitMutation_spec hopen hst _

end Db

/-- Every call on an open handle with nothing staged. -/
theorem Call.spec (hopen : db.opened = true) (hst : StageOk sh.BLOCK db.wal []) (c : Call sh) :
    c.run.wp (CallEnd sh db d c.ops) db d := by
  cases c with
  | put key val => exact Db.commitMutation_spec hopen hst _
  | putWithTtl key val expireAt => exact Db.commitMutation_spec hopen hst _
  | delete key => exact Db.commitMutation_spec hopen hst _
  | deleteRange start stop => exact Db.deleteRange_spec hopen hst start stop
  | write batch => exact Db.write_spec hopen hst batch

end Horton
