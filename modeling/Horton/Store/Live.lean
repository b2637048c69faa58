import Horton.Db.Healthy
import Horton.Store.Stored

/-!
# A handle over the stored log

`Live` is the invariant of an open handle: its memtable is the replay of what the WAL keeps, its tables are those on the
device, and its slot map marks their slots.  A call appends its records, a flush moves what the WAL keeps into a table, and
both leave the stored log as it was wherever the power is cut.
-/

namespace Horton

open BlockDev GroupLog Sstable

variable {sh : Shape} {c : Config} {db db' : Db} {d d' : Device} {conts : Contents} {old kept log : List Record}

/-- The slots of an accepted configuration: at most one word of them, none in use. -/
theorem Config.Accepted.slotCount {s : SlotMap} (h : c.Accepted sh s) : s.slots ≤ 64 ∧ s.used = 0 := by
  have hs := h.2
  have hmax : SlotMap.MAX_SLOTS = 64 := rfl
  unfold SlotMap.layout at hs
  split at hs
  · cases hs
  rename_i hnot
  dsimp only at hs
  split at hs
  · cases hs
  obtain rfl := Option.some.inj hs
  exact ⟨by dsimp only; omega, rfl⟩

/-! ### The invariant -/

/-- The open handle `db` over the stored log `old ++ kept`. -/
structure Live (sh : Shape) (c : Config) (db : Db) (d : Device) (conts : Contents) (old kept : List Record) : Prop where
  stored : Stored sh c d db.manifest db.wal.nextBlock db.nextSeq conts old kept
  table : replayAll sh .new kept = .ok db.table
  stage : StageOk sh.BLOCK db.wal []
  nextSeq : db.nextSeq ≤ U64_MAX
  newest : db.nextSeq ≤ lastSeq (old ++ kept)
  inside : db.SlotsInside
  layout : ∃ s, c.Accepted sh s ∧ s.SameLayout db.slots
  marks : db.slots.Marks db.manifest.tables

/-- The device stores the log. -/
def Stores (sh : Shape) (c : Config) (d : Device) (log : List Record) : Prop :=
  ∃ m next top conts old kept, Stored sh c d m next top conts old kept ∧ log = old ++ kept

/-- The handle is open over a device that stores the log. -/
def Serves (sh : Shape) (c : Config) (db : Db) (d : Device) (log : List Record) : Prop :=
  HandleOk sh c db ∧ ∃ conts old kept, Live sh c db d conts old kept ∧ log = old ++ kept

/-- What an action leaves: a handle that serves the log, or, behind a power cut, a device that stores it. -/
def Leaves {α : Type} (sh : Shape) (c : Config) (log : List Record) (o : Outcome Error α) (db : Db) (d : Device) : Prop :=
  match o with
  | .cut => Stores sh c d log
  | _ => Serves sh c db d log

theorem Serves.stores (h : Serves sh c db d log) : Stores sh c d log := by
  obtain ⟨-, conts, old, kept, hl, rfl⟩ := h
  exact ⟨_, _, _, conts, old, kept, hl.stored, rfl⟩

/-- The answers of the device do not matter. -/
theorem Stores.same (h : Stores sh c d log) (hb : d'.blocks = d.blocks) (hw : d'.writes = d.writes) : Stores sh c d' log :=
    by
  obtain ⟨m, next, top, conts, old, kept, hs, rfl⟩ := h
  exact ⟨m, next, top, conts, old, kept, hs.same hb hw, rfl⟩

namespace Live

theorem regions (h : Live sh c db d conts old kept) : c.Regions sh := by
  obtain ⟨s, hs, -⟩ := h.layout
  exact Config.regions_of_check hs.1

theorem slotCount (h : Live sh c db d conts old kept) : db.slots.slots ≤ 64 := by
  obtain ⟨s, hs, hsame⟩ := h.layout
  rw [hsame.2.2]
  exact hs.slotCount.1

theorem places (h : Live sh c db d conts old kept) : db.slots.Places db.manifest.tables := by
  obtain ⟨s, hs, hsame⟩ := h.layout
  exact (h.stored.placed s hs.2).same hsame

theorem memtable (h : Live sh c db d conts old kept) :
    MemTable.Refines sh db.table (kept.map Record.entry) ∧ db.table.Bounded sh := h.stored.memtable h.table

theorem sized (h : Live sh c db d conts old kept) (hb : c.Bounded) (hh : HandleOk sh c db) : db.Sized := by
  have hnext := h.stored.region.next_le
  have hend := hb.walEnd_lt
  have hseq := h.nextSeq
  rw [U64_MAX] at hseq
  refine ⟨hh.cfg ▸ hb, by omega, by omega, fun e he => ?_⟩
  obtain ⟨r, hr, rfl⟩ := List.mem_map.mp (h.memtable.1.perm.mem_iff.mp he)
  rw [r.entry_seq]
  exact (h.stored.wf r hr).1.seq_lt

/-- Blocks that the stored log does not depend on do not matter. -/
theorem keeps (h : Live sh c db d conts old kept) (hk : Keeps (Stored.Uses sh c db.manifest) d d') :
    Live sh c db d' conts old kept := { h with stored := h.stored.keeps hk }

theorem same (h : Live sh c db d conts old kept) (hb : d'.blocks = d.blocks) (hw : d'.writes = d.writes) :
    Live sh c db d' conts old kept := h.keeps (.of_eq _ hb hw)

/-- The handle with an idle writer. -/
theorem idle (h : Live sh c db d conts old kept) {w : WalWriter} (hw : Idle sh db.wal w 0) :
    Live sh c { db with wal := w } d conts old kept := by
  refine { h with stored := ?_, stage := hw.stage }
  show Stored sh c d db.manifest w.nextBlock db.nextSeq conts old kept
  rw [hw.nextBlock]
  exact h.stored

/-! ### Calls -/

/-- The records of a call are newer than the log. -/
theorem fresh {ops : List BatchOp} (hl : Landing sh db ops) : Fresh db.nextSeq (db.group ops) := by
  refine ⟨hl.wf, (numbered_groupRecords _ _).increasing, fun r hr => ?_⟩
  exact ((numbered_groupRecords db.nextSeq ops).bounds r hr).1

theorem group_last {ops : List BatchOp} (hne : ops ≠ []) : ∃ r ∈ db.group ops, r.seq = db.nextSeq + ops.length := by
  have hnum := numbered_groupRecords db.nextSeq ops
  have hlen := length_groupRecords (db.nextSeq + 1) ops
  unfold Db.group
  cases hrs : groupRecords (db.nextSeq + 1) ops using List.reverseRecOn with
  | nil =>
    rw [hrs] at hlen
    exact absurd (List.length_eq_zero_iff.mp hlen.symm) hne
  | append_singleton rs r =>
    rw [hrs] at hnum hlen
    rw [List.length_append, List.length_singleton] at hlen
    obtain ⟨-, hseq, -⟩ := numbered_append.mp hnum
    exact ⟨r, by simp, by omega⟩

theorem group_le {ops : List BatchOp} : ∀ r ∈ db.group ops, r.seq ≤ db.nextSeq + ops.length := by
  intro r hr
  have hb := (numbered_groupRecords db.nextSeq ops).bounds r hr
  rw [length_groupRecords] at hb
  exact hb.2

end Live

/-- What a call with the records `rs` adds to the log: all of them, or, where the power is cut, perhaps none. -/
def Added (rs log log' : List Record) : Outcome Error Nat → Prop
  | .ok _ => log' = log ++ rs
  | .cut => log' = log ∨ log' = log ++ rs
  | _ => log' = log

/-- A call that does not fail has passed the check of its memtable. -/
theorem Call.replays (hopen : db.opened = true) (k : Call sh) :
    k.run.wp (fun o _ _ => (∀ e, o ≠ .err e) → ∃ t, replayAll sh db.table (db.group k.ops) = .ok t) db d := by
  have hone : ∀ m : Mutation, (Db.commitMutation sh m).wp
      (fun o _ _ => (∀ e, o ≠ .err e) → ∃ t, replayAll sh db.table (db.group [m.op]) = .ok t) db d := by
    intro m
    have hgroup : replayAll sh db.table (db.group [m.op]) = m.insert sh db.table (db.nextSeq + 1) := by
      rw [m.insert_eq, Db.group, ← insertOps_eq]
      show m.op.insert sh db.table (db.nextSeq + 1) >>= (fun t => pure t) = _
      rw [bind_pure]
    rw [hgroup]
    cases hcheck : m.check sh db.table with
    | ok u =>
      obtain ⟨t, ht⟩ := Mutation.insert_of_check hcheck (db.nextSeq + 1)
      exact fun _ => ⟨t, ht⟩
    | error e =>
      rw [Db.commitMutation, Prog.wp_bind, Db.wp_ensureOpen, if_pos hopen, Prog.andThen_ok, Prog.wp_bind, Prog.wp_get,
        Prog.andThen_ok, Prog.wp_bind, hcheck, Prog.wp_ofExcept_error, Prog.andThen_err]
      exact fun hno => absurd rfl (hno e)
  cases k with
  | put key val => exact hone _
  | putWithTtl key val expireAt => exact hone _
  | delete key => exact hone _
  | deleteRange start stop =>
    show (Db.deleteRange sh start stop).wp (fun o _ _ => (∀ e, o ≠ .err e) → ∃ t, replayAll sh db.table
      (db.group (if start ≥ stop then [] else [(Mutation.rangeDelete start stop).op])) = .ok t) db d
    rw [Db.deleteRange, Prog.wp_bind, Db.wp_ensureOpen, if_pos hopen, Prog.andThen_ok, Prog.wp_bind, Prog.wp_get,
      Prog.andThen_ok]
    by_cases hle : start ≥ stop
    · rw [if_pos hle, if_pos hle]
      exact fun _ => ⟨db.table, rfl⟩
    · rw [if_neg hle, if_neg hle]
      exact hone _
  | write batch =>
    show (Db.write sh batch).wp (fun o _ _ => (∀ e, o ≠ .err e) →
      ∃ t, replayAll sh db.table (db.group batch.ops) = .ok t) db d
    cases hcheck : Db.checkBatch sh db.table batch.ops with
    | ok u =>
      obtain ⟨-, hslots, harena⟩ := Db.checkBatch_ok hcheck
      obtain ⟨t, ht⟩ := insertOps_ok batch.valid hslots harena (db.nextSeq + 1)
      rw [insertOps_eq] at ht
      exact fun _ => ⟨t, ht⟩
    | error e =>
      rw [Db.write, Prog.wp_bind, Db.wp_ensureOpen, if_pos hopen, Prog.andThen_ok, Prog.wp_bind, Prog.wp_get,
        Prog.andThen_ok]
      split
      · rename_i hnil
        rw [hnil]
        exact fun _ => ⟨db.table, rfl⟩
      · rw [Prog.wp_bind, hcheck, Prog.wp_ofExcept_error, Prog.andThen_err]
        exact fun hno => absurd rfl (hno e)

/-- A call appends its records; where the power is cut, all of them or none. -/
theorem Live.call (h : Live sh c db d conts old kept) (hh : HandleOk sh c db) (hopen : db.opened = true)
    (hcuts : Sys.OnlyCuts d.fates) (hforge : NoForgeIn d c.walStart c.walEnd) (k : Call sh) {o : Outcome Error Nat}
    (hrun : k.run db d = (o, db', d')) (hforge' : NoForgeIn d' c.walStart c.walEnd) :
    ∃ log, Added (db.group k.ops) (old ++ kept) log o ∧ Leaves sh c log o db' d' := by
  have hreg := h.regions
  have hreplay := Prog.wp_run (Call.replays hopen k) hrun
  have hroom : Landing sh db k.ops → c.InWal db.wal.nextBlock := by
    intro hl
    have hlt := hl.room
    rw [hh.walEnd] at hlt
    exact ⟨h.stored.region.start_le.trans h.stored.region.head_le, hlt⟩
  have hwhole : (∃ t, replayAll sh db.table (db.group k.ops) = .ok t) → Landing sh db k.ops →
      Stored sh c (db.landed d (blockOf sh.BLOCK (db.group k.ops))) db.manifest (db.wal.nextBlock + 1)
        (db.nextSeq + k.ops.length) conts old (kept ++ db.group k.ops) := by
    rintro ⟨t, ht⟩ hl
    exact h.stored.write_whole hreg (fresh hl) hl.fits (isGroup_groupRecords _ hl.ne) (hroom hl).2 h.table ht group_le
      (Nat.le_add_right _ _) rfl rfl
  have hfate : d.fate = .ok ∨ ∃ k, d.fate = .cut k := hcuts.fate
  have hfate' : d.advance.fate = .ok ∨ ∃ k, d.advance.fate = .cut k := Sys.OnlyCuts.fate hcuts.tail
  cases Prog.wp_run (Call.spec hopen h.stage k) hrun with
  | nothing hnil =>
    refine ⟨old ++ kept, ?_, hh, conts, old, kept, h, rfl⟩
    rw [hnil]
    exact (List.append_nil _).symm
  | refused hw => exact ⟨old ++ kept, rfl, hw.handleOk hh rfl, conts, old, kept, h.idle hw, rfl⟩
  | stopped hl hstop =>
    cases hstop with
    | failed hf hw => rcases hfate with h1 | ⟨k, h1⟩ <;> rw [h1] at hf <;> cases hf
    | dropped hf => rcases hfate with h1 | ⟨k, h1⟩ <;> rw [h1] at hf <;> cases hf
    | unflushed hok hf => rcases hfate' with h1 | ⟨k, h1⟩ <;> rw [h1] at hf <;> cases hf
    | unflushedDropped hok hf => rcases hfate' with h1 | ⟨k, h1⟩ <;> rw [h1] at hf <;> cases hf
    | unflushedCut hok hf =>
      exact ⟨old ++ kept ++ db.group k.ops, Or.inr rfl, _, _, _, conts, old, _, hwhole (hreplay (by simp)) hl,
        List.append_assoc _ _ _⟩
    | @cut n _ hf =>
      obtain ⟨t, ht⟩ := hreplay (by simp)
      obtain ⟨hge, hlt⟩ := hroom hl
      obtain ⟨next', kept', hkept, hs⟩ := h.stored.write_torn hreg (fresh hl) hl.fits (isGroup_groupRecords _ hl.ne)
        hlt h.table ht
        group_le (Nat.le_add_right _ _) rfl rfl (hforge _ hge hlt) (hforge' _ hge hlt)
      refine ⟨old ++ kept', hkept.imp (fun heq => by rw [heq]) fun heq => ?_, _, _, _, conts, old, kept', hs.same rfl rfl, rfl⟩
      rw [heq, List.append_assoc]
  | @done w t hl h1 h2 hw ht =>
    have hs := hwhole ⟨t, ht⟩ hl
    rw [← hw.nextBlock] at hs
    refine ⟨old ++ kept ++ db.group k.ops, rfl, hw.handleOk hh rfl, conts, old, kept ++ db.group k.ops, ?_,
      List.append_assoc _ _ _⟩
    refine ⟨hs, ?_, hw.stage, hl.seqs, ?_, h.inside, h.layout, h.marks⟩
    · rw [replayAll_append, h.table]
      exact ht
    · obtain ⟨r, hr, heq⟩ := group_last hl.ne
      show db.nextSeq + k.ops.length ≤ _
      rw [← heq]
      exact seq_le_lastSeq (by simp [hr])

end Horton
