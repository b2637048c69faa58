import Horton.Db.Commit

/-!
# Calls on a handle with records staged

A future that was dropped at a block write leaves its records staged, and the next call meets them.  `Rejected` is what a
call that returns an error leaves: the memtable, the manifest and the blocks outside the rest of the log as they were, and
the counter and the staged records too unless the device reported a block of the log as written.
-/

namespace Horton

open BlockDev

variable {sh : Shape}

namespace Db

variable {db db' : Db} {d d' : Device} {rs : List Record}

/-- The blocks that no append of this handle goes to. -/
def OutsideLog (db : Db) (j : Nat) : Prop := ¬(db.wal.nextBlock ≤ j ∧ j < db.wal.walEnd)

/-- The device reported the first request of the call, a block write at the append position, as done. -/
def Reported (db : Db) (d d' : Device) : Prop :=
  d.fate = .ok ∧ ∃ data ws, d'.writes = d.writes ++ ⟨db.wal.nextBlock, data, data⟩ :: ws

/-- The staged records are those of `db`, byte for byte. -/
def SameStage (db db' : Db) : Prop := db'.wal.stageLen = db.wal.stageLen ∧
  db'.wal.stage.take db.wal.stageLen = db.wal.stage.take db.wal.stageLen

/-- The memtable `t'` is `t`, or `t` with the entries of records that fit a block. -/
def Inserted (sh : Shape) (t t' : MemTable) : Prop :=
  t' = t ∨ ∃ rs, (∀ r ∈ rs, r.WF ∧ r.len ≤ sh.BLOCK) ∧ replayAll sh t rs = .ok t'

/-- What is left of the handle behind a call: everything but the writer, the counter and the memtable is as it was. -/
structure Kept (sh : Shape) (db db' : Db) : Prop where
  frame : ∃ w n t, db' = { db with wal := w, nextSeq := n, table := t }
  table : Inserted sh db.table db'.table
  nextSeq : db.nextSeq ≤ U64_MAX → db'.nextSeq ≤ U64_MAX
  stage : ∃ rs, StageOk sh.BLOCK db'.wal rs
  next : db.wal.nextBlock ≤ db'.wal.nextBlock
  next_le : db'.wal.nextBlock ≤ max db.wal.nextBlock db.wal.walEnd
  walStart : db'.wal.walStart = db.wal.walStart
  walEnd : db'.wal.walEnd = db.wal.walEnd

/-- What a call that returned an error leaves. -/
structure Rejected (sh : Shape) (db : Db) (d : Device) (db' : Db) (d' : Device) : Prop where
  kept : Kept sh db db'
  table : db'.table = db.table
  blocks : Keeps db.OutsideLog d d'
  staged : (db'.nextSeq = db.nextSeq ∧ db.SameStage db') ∨ db.Reported d d'

theorem Reported.more {d'' : Device} (h : db.Reported d d') {ws : List Write} (hw : d''.writes = d'.writes ++ ws) :
    db.Reported d d'' := by
  obtain ⟨hf, data, ws', hd'⟩ := h
  exact ⟨hf, data, ws' ++ ws, by rw [hw, hd']; simp⟩

theorem sameStage_of_stageOk {w w' : WalWriter} (h : StageOk sh.BLOCK w rs) (h' : StageOk sh.BLOCK w' rs) :
    w'.stageLen = w.stageLen ∧ w'.stage.take w.stageLen = w.stage.take w.stageLen := by
  have hlen : w'.stageLen = w.stageLen := h'.stageLen_eq.trans h.stageLen_eq.symm
  refine ⟨hlen, ?_⟩
  rw [h.stage_eq, ← hlen, h'.stage_eq]

/-! ### While a call stages -/

/-- The writer and the device while records are staged behind `rs`: nothing was asked of the device yet, or it has
reported a block write. -/
inductive Staging (sh : Shape) (db : Db) (d : Device) (rs : List Record) : WalWriter → Device → Prop
  | ahead {w} (ss : List Record) (h : StageOk sh.BLOCK w (rs ++ ss)) (hn : w.nextBlock = db.wal.nextBlock)
      (hs : w.walStart = db.wal.walStart) (he : w.walEnd = db.wal.walEnd) : Staging sh db d rs w d
  | moved {w d'} (ss : List Record) (h : StageOk sh.BLOCK w ss) (hn : db.wal.nextBlock < w.nextBlock)
      (hl : w.nextBlock ≤ w.walEnd) (hs : w.walStart = db.wal.walStart) (he : w.walEnd = db.wal.walEnd) (hk : Keeps db.OutsideLog d d')
      (hr : db.Reported d d') : Staging sh db d rs w d'

/-- The writer and the device when the device has stopped the call. -/
inductive Stopped (sh : Shape) (db : Db) (d : Device) (rs : List Record) : WalWriter → Device → Prop
  | failed {w d'} (ss : List Record) (h : StageOk sh.BLOCK w (rs ++ ss)) (hn : w.nextBlock = db.wal.nextBlock)
      (hs : w.walStart = db.wal.walStart) (he : w.walEnd = db.wal.walEnd) (hk : Keeps db.OutsideLog d d') :
      Stopped sh db d rs w d'
  | moved {w d'} (ss : List Record) (h : StageOk sh.BLOCK w ss) (hn : db.wal.nextBlock < w.nextBlock)
      (hl : w.nextBlock ≤ w.walEnd) (hs : w.walStart = db.wal.walStart) (he : w.walEnd = db.wal.walEnd) (hk : Keeps db.OutsideLog d d')
      (hr : db.Reported d d') : Stopped sh db d rs w d'

theorem Staging.start (h : StageOk sh.BLOCK db.wal rs) : Staging sh db d rs db.wal d :=
  .ahead [] (by simpa using h) rfl rfl rfl

theorem Staging.stopped {w : WalWriter} (h : Staging sh db d rs w d') : Stopped sh db d rs w d' := by
  cases h with
  | ahead ss h hn hs he => exact .failed ss h hn hs he (.refl _ _)
  | moved ss h hn hl hs he hk hr => exact .moved ss h hn hl hs he hk hr

theorem Stopped.stageOk {w : WalWriter} (h : Stopped sh db d rs w d') : ∃ ss, StageOk sh.BLOCK w ss := by
  cases h with
  | failed ss h => exact ⟨_, h⟩
  | moved ss h => exact ⟨_, h⟩

theorem Stopped.kept {w : WalWriter} (h : Stopped sh db d rs w d') {n : Nat} {t : MemTable}
    (hn : db.nextSeq ≤ U64_MAX → n ≤ U64_MAX) (ht : Inserted sh db.table t) :
    Kept sh db { db with wal := w, nextSeq := n, table := t } := by
  refine ⟨⟨w, n, t, rfl⟩, ht, hn, h.stageOk, ?_, ?_, ?_, ?_⟩
  · cases h with
    | failed ss h hn => exact hn.ge
    | moved ss h hn => exact hn.le
  · cases h with
    | failed ss h hn => exact hn.le.trans (le_max_left _ _)
    | moved ss h hn hl hs he => exact (he ▸ hl).trans (le_max_right _ _)
  · cases h <;> assumption
  · cases h <;> assumption

theorem outsideLog_not {id : Nat} (h : db.wal.nextBlock ≤ id) (h' : id < db.wal.walEnd) : ¬db.OutsideLog id :=
  fun hout => hout ⟨h, h'⟩

/-- One more record is staged, behind the others or in a block of its own. -/
theorem Staging.append {w : WalWriter} (h : Staging sh db d rs w d') (op : BatchOp) (seq : Nat) (more : Bool) :
    (op.append sh seq more).wp (fun o w' d'' => o ≠ .cut → match o with
      | .ok _ => Staging sh db d rs w' d'' ∧ w'.stageLen > 0 ∧ (op.record seq more).key.length ≤ U16_MAX ∧
          (op.record seq more).val.length ≤ U16_MAX ∧ (op.record seq more).len ≤ sh.BLOCK
      | _ => Stopped sh db d rs w' d'') w d' := by
  have hpos : ∀ {ss : List Record} {w' : WalWriter}, StageOk sh.BLOCK w' (ss ++ [op.record seq more]) → w'.stageLen > 0 := by
    intro ss w' h'
    have hr := Record.len_pos (op.record seq more)
    rw [h'.stageLen_eq, lens_append, lens_cons]
    omega
  cases h with
  | ahead ss h hn hs he =>
    refine Prog.wp_mono (op.append_spec h seq more) ?_
    intro o w' d'' hp ho
    cases o with
    | cut => exact absurd rfl ho
    | ok u =>
      obtain ⟨hkey, hval, hr, ⟨hfit, rfl, rfl⟩ | ⟨hlong, hroom, hf, rfl, rfl⟩⟩ := hp
      · have h' := h.stageRecord hfit
        exact ⟨.ahead (ss ++ [op.record seq more]) (by simpa using h') hn hs he, hpos h', hkey, hval, hr⟩
      · have h' := h.wrote.stageRecord (r := op.record seq more) (by simpa using hr)
        refine ⟨.moved _ h' ?_ hroom hs he ?_ ⟨hf, blockOf sh.BLOCK (rs ++ ss), [], by simp [hn]⟩, hpos h', hkey, hval, hr⟩
        · show db.wal.nextBlock < w.nextBlock + 1
          omega
        · exact ((Keeps.refl _ _).put (outsideLog_not hn.ge (he ▸ hroom)) _ _).advance
    | err e =>
      rcases hp with ⟨rfl, rfl⟩ | ⟨-, hroom, k, -, rfl, rfl⟩
      · exact .failed ss h hn hs he (.refl _ _)
      · exact .failed ss h.sealed hn hs he ((Keeps.refl _ _).put (outsideLog_not hn.ge (he ▸ hroom)) _ _).advance
    | dropped =>
      obtain ⟨-, hroom, k, -, rfl, rfl⟩ := hp
      exact .failed ss h.sealed hn hs he ((Keeps.refl _ _).put (outsideLog_not hn.ge (he ▸ hroom)) _ _).advance
  | moved ss h hn hl hs he hk hr =>
    refine Prog.wp_mono (op.append_spec h seq more) ?_
    intro o w' d'' hp ho
    cases o with
    | cut => exact absurd rfl ho
    | ok u =>
      obtain ⟨hkey, hval, hlen, ⟨hfit, rfl, rfl⟩ | ⟨hlong, hroom, hf, rfl, rfl⟩⟩ := hp
      · exact ⟨.moved _ (h.stageRecord hfit) hn hl hs he hk hr, hpos (h.stageRecord hfit), hkey, hval, hlen⟩
      · have h' := h.wrote.stageRecord (r := op.record seq more) (by simpa using hlen)
        refine ⟨.moved _ h' ?_ hroom hs he ?_ (hr.more rfl), hpos h', hkey, hval, hlen⟩
        · show db.wal.nextBlock < w.nextBlock + 1
          omega
        · exact (hk.put (outsideLog_not hn.le (he ▸ hroom)) _ _).advance
    | err e =>
      rcases hp with ⟨rfl, rfl⟩ | ⟨-, hroom, k, -, rfl, rfl⟩
      · exact .moved ss h hn hl hs he hk hr
      · exact .moved ss h.sealed hn hl hs he (hk.put (outsideLog_not hn.le (he ▸ hroom)) _ _).advance (hr.more rfl)
    | dropped =>
      obtain ⟨-, hroom, k, -, rfl, rfl⟩ := hp
      exact .moved ss h.sealed hn hl hs he (hk.put (outsideLog_not hn.le (he ▸ hroom)) _ _).advance (hr.more rfl)

/-- The commit of what is staged. -/
theorem Staging.commit {w : WalWriter} (h : Staging sh db d rs w d') (hpos : w.stageLen > 0) :
    WalWriter.commit.wp (fun o w' d'' => o ≠ .cut → Stopped sh db d rs w' d'') w d' := by
  cases h with
  | ahead ss h hn hs he =>
    have hne : rs ++ ss ≠ [] := by
      intro hnil
      rw [h.stageLen_eq, hnil] at hpos
      simp at hpos
    refine Prog.wp_mono (commit_spec h hne) ?_
    rintro o w' d'' hp -
    rcases hp with ⟨-, rfl, rfl⟩ | ⟨hroom, ⟨k, rfl, rfl, -⟩ | ⟨hf, rfl, rfl, -⟩⟩
    · exact .failed ss h hn hs he (.refl _ _)
    · exact .failed ss h.sealed hn hs he ((Keeps.refl _ _).put (outsideLog_not hn.ge (he ▸ hroom)) _ _).advance
    · refine .moved [] h.wrote ?_ hroom hs he ?_ ⟨hf, blockOf sh.BLOCK (rs ++ ss), [], by simp [hn]⟩
      · show db.wal.nextBlock < w.nextBlock + 1
        omega
      · exact ((Keeps.refl _ _).put (outsideLog_not hn.ge (he ▸ hroom)) _ _).advance.advance
  | moved ss h hn hl hs he hk hr =>
    have hne : ss ≠ [] := by
      intro hnil
      rw [h.stageLen_eq, hnil] at hpos
      simp at hpos
    refine Prog.wp_mono (commit_spec h hne) ?_
    rintro o w' d'' hp -
    rcases hp with ⟨-, rfl, rfl⟩ | ⟨hroom, ⟨k, rfl, rfl, -⟩ | ⟨hf, rfl, rfl, -⟩⟩
    · exact .moved ss h hn hl hs he hk hr
    · exact .moved ss h.sealed hn hl hs he (hk.put (outsideLog_not hn.le (he ▸ hroom)) _ _).advance (hr.more rfl)
    · refine .moved [] h.wrote ?_ hroom hs he ?_ (hr.more rfl)
      · show db.wal.nextBlock < w.nextBlock + 1
        omega
      · exact (hk.put (outsideLog_not hn.le (he ▸ hroom)) _ _).advance.advance

/-! ### Rolling back -/

/-- The rollback drops what was staged behind `rs`, or consumes the numbers. -/
theorem Stopped.fail {α : Type} {w : WalWriter} (hst : StageOk sh.BLOCK db.wal rs) (h : Stopped sh db d rs w d') (n : Nat)
    (e : Error) :
    (failCommit ⟨lens rs, db.wal.nextBlock⟩ n e : Prog Db Error α).wp
      (fun o db' d'' => (∃ e', o = .err e') ∧ Rejected sh db d db' d'') { db with wal := w } d' := by
  cases h with
  | failed ss h hn hs he hk =>
    rw [failCommit, Prog.wp_bind, rollbackCommit, Prog.wp_bind, Prog.wp_get, Prog.andThen_ok, if_pos hn, Prog.wp_set,
      Prog.andThen_ok, Prog.wp_throw]
    have htrunc : Stopped sh db d rs (w.truncateStage (lens rs)) d' :=
      .failed [] (by simpa using h.truncate) hn hs he hk
    refine ⟨⟨e, rfl⟩, htrunc.kept id (.inl rfl), rfl, hk, .inl ⟨rfl, ?_⟩⟩
    exact sameStage_of_stageOk hst h.truncate
  | moved ss h hn hl hs he hk hr =>
    rw [failCommit, Prog.wp_bind, rollbackCommit, Prog.wp_bind, Prog.wp_get, Prog.andThen_ok,
      if_neg (by show w.nextBlock ≠ db.wal.nextBlock; omega)]
    have hstop : Stopped sh db d rs w d' := .moved ss h hn hl hs he hk hr
    split
    · rw [Prog.wp_throw, Prog.andThen_err]
      exact ⟨⟨_, rfl⟩, hstop.kept id (.inl rfl), rfl, hk, .inr hr⟩
    · rename_i hseq
      rw [Prog.wp_set, Prog.andThen_ok, Prog.wp_throw]
      exact ⟨⟨_, rfl⟩, hstop.kept (fun _ => Nat.le_of_not_lt hseq) (.inl rfl), rfl, hk, .inr hr⟩

/-! ### The calls -/

/-- How a call ends, unless the power is cut. -/
def CallPost (sh : Shape) (db : Db) (d : Device) (o : Outcome Error Nat) (db' : Db) (d' : Device) : Prop :=
  o ≠ .cut → Kept sh db db' ∧ ∀ e, o = .err e → Rejected sh db d db' d'

theorem kept_refl (hst : StageOk sh.BLOCK db.wal rs) : Kept sh db db :=
  ⟨⟨db.wal, db.nextSeq, db.table, rfl⟩, .inl rfl, id, ⟨rs, hst⟩, le_rfl, le_max_left _ _, rfl, rfl⟩

theorem rejected_refl (hst : StageOk sh.BLOCK db.wal rs) : Rejected sh db d db d :=
  ⟨kept_refl hst, rfl, .refl _ _, .inl ⟨rfl, rfl, rfl⟩⟩

/-- A refusal before anything happened. -/
theorem callPost_refused (hst : StageOk sh.BLOCK db.wal rs) (e : Error) : CallPost sh db d (.err e) db d :=
  fun _ => ⟨kept_refl hst, fun _ _ => rejected_refl hst⟩

theorem Rejected.callPost {o : Outcome Error Nat} (h : Rejected sh db d db' d') : CallPost sh db d o db' d' :=
  fun _ => ⟨h.kept, fun _ _ => h⟩

/-- A device stop that the call does not get to see, a dropped future for one. -/
theorem Stopped.callPost {w : WalWriter} (h : Stopped sh db d rs w d') {o : Outcome Error Nat} (ho : ∀ e, o ≠ .err e) :
    CallPost sh db d o { db with wal := w } d' :=
  fun _ => ⟨h.kept id (.inl rfl), fun e he => absurd he (ho e)⟩

/-- The end of a single-op call: the staged record is committed, numbered and inserted. -/
private theorem finishMutation_spec {w : WalWriter} (hst : StageOk sh.BLOCK db.wal rs) (h : Staging sh db d rs w d')
    (hpos : w.stageLen > 0) {seq : Nat} (hseq : seq ≤ U64_MAX) {x : Except Error MemTable}
    (hx : ∃ t, x = .ok t ∧ Inserted sh db.table t) :
    (do
      commitStaged ⟨lens rs, db.wal.nextBlock⟩ 1
      Prog.modify fun db => { db with nextSeq := seq }
      let table ← Prog.ofExcept x
      Prog.modify fun db => { db with table := table }
      return seq : Prog Db Error Nat).wp (CallPost sh db d) { db with wal := w } d' := by
  obtain ⟨t, rfl, ht⟩ := hx
  rw [Prog.wp_bind, commitStaged, Prog.wp_bind, Prog.wp_attempt, onWal, Prog.wp_zoom]
  refine Prog.wp_mono (h.commit hpos) ?_
  intro o w' d'' hp
  cases o with
  | cut => exact fun hc => absurd rfl hc
  | dropped => exact (hp (by simp)).callPost (by simp)
  | ok u =>
    dsimp only [Prog.andThen_ok]
    rw [Prog.wp_pure, Prog.andThen_ok, Prog.wp_bind, Prog.wp_modify, Prog.andThen_ok, Prog.wp_bind, Prog.wp_ofExcept_ok,
      Prog.andThen_ok, Prog.wp_bind, Prog.wp_modify, Prog.andThen_ok, Prog.wp_pure]
    exact fun _ => ⟨(hp (by simp)).kept (fun _ => hseq) ht, fun e he => by cases he⟩
  | err e =>
    dsimp only [Prog.andThen_ok]
    rw [Prog.wp_bind, Prog.wp_get, Prog.andThen_ok]
    refine Prog.wp_mono ((hp (by simp)).fail hst _ e) ?_
    rintro o db' d₂ ⟨⟨e', rfl⟩, hrej⟩
    exact hrej.callPost

theorem commitMutation_staged (hopen : db.opened = true) (hst : StageOk sh.BLOCK db.wal rs) (m : Mutation) :
    (commitMutation sh m).wp (CallPost sh db d) db d := by
  rw [commitMutation, Prog.wp_bind, wp_ensureOpen, if_pos hopen, Prog.andThen_ok, Prog.wp_bind, Prog.wp_get,
    Prog.andThen_ok, Prog.wp_bind]
  cases hcheck : m.check sh db.table with
  | error e => exact callPost_refused hst e
  | ok u =>
    rw [Prog.wp_ofExcept_ok, Prog.andThen_ok]
    split
    · exact callPost_refused hst .counterExhausted
    · rename_i hseq
      have hmark : db.stageMark = ⟨lens rs, db.wal.nextBlock⟩ := by
        simp only [stageMark, WalWriter.stagedBytes, hst.stageLen_eq]
      dsimp only
      rw [Prog.wp_bind, hmark, m.append_eq, stageAppend, Prog.wp_bind, Prog.wp_attempt, onWal, Prog.wp_zoom]
      refine Prog.wp_mono ((Staging.start hst).append m.op (db.nextSeq + 1) false) ?_
      intro o w d' hp
      cases o with
      | cut => exact fun hc => absurd rfl hc
      | dropped => exact (hp (by simp)).callPost (by simp)
      | err e =>
        dsimp only [Prog.andThen_ok]
        refine Prog.wp_mono ((hp (by simp)).fail hst 0 e) ?_
        rintro o db' d₂ ⟨⟨e', rfl⟩, hrej⟩
        exact hrej.callPost
      | ok u =>
        obtain ⟨hstaging, hpos, hkey, hval, hlen⟩ := hp (by simp)
        obtain ⟨t, ht⟩ := Mutation.insert_of_check hcheck (db.nextSeq + 1)
        have hwf : (m.op.record (db.nextSeq + 1) false).WF := by
          have hu : U64_MAX = 2 ^ 64 - 1 := rfl
          exact BatchOp.record_wf (by omega) hkey hval
        have hreplay : replayAll sh db.table [m.op.record (db.nextSeq + 1) false] = .ok t := by
          rw [← ht, m.insert_eq, m.op.insert_eq _ false, replayAll, List.foldlM_cons]
          exact bind_pure _
        dsimp only [Prog.andThen_ok]
        rw [Prog.wp_pure, Prog.andThen_ok]
        exact finishMutation_spec hst hstaging hpos (Nat.le_of_not_lt hseq)
          ⟨t, ht, .inr ⟨_, by simpa using ⟨hwf, hlen⟩, hreplay⟩⟩

/-- The blocks a stopped group touches are at the append position. -/
private theorem keeps_torn (db : Db) {d d' : Device} {P : Nat → Prop} (hk : Keeps P d d') (hout : ¬P db.wal.nextBlock) (data : Bytes) (k : Nat) :
    Keeps P d (db.torn d' data k) := (hk.put hout _ _).advance

private theorem keeps_landed {P : Nat → Prop} (hk : Keeps P d d') (hout : ¬P db.wal.nextBlock) (data : Bytes) :
    Keeps P d (db.landed d' data) := (hk.put hout _ _).advance.advance

private theorem kept_idle {w : WalWriter} {n : Nat} (h : Idle sh db.wal w n)
    (hn : db.wal.nextBlock + n ≤ max db.wal.nextBlock db.wal.walEnd) {seq : Nat} {t : MemTable}
    (hseq : db.nextSeq ≤ U64_MAX → seq ≤ U64_MAX) (ht : Inserted sh db.table t) :
    Kept sh db { db with wal := w, nextSeq := seq, table := t } :=
  ⟨⟨w, seq, t, rfl⟩, ht, hseq, ⟨[], h.stage⟩, by rw [h.nextBlock]; exact Nat.le_add_right _ _,
    by rw [h.nextBlock]; exact hn, h.walStart, h.walEnd⟩

private theorem inserted_landing {ops : List BatchOp} {t : MemTable} (hl : Landing sh db ops)
    (ht : replayAll sh db.table (db.group ops) = .ok t) : Inserted sh db.table t := by
  refine .inr ⟨_, ?_, ht⟩
  intro r hr
  exact ⟨hl.wf r hr, (len_le_lens hr).trans hl.fits⟩

private theorem sameStage_idle {w : WalWriter} (hst : StageOk sh.BLOCK db.wal []) (h : Idle sh db.wal w 0) (n : Nat) :
    db.SameStage { db with wal := w, nextSeq := n } := sameStage_of_stageOk hst h.stage

/-- A call on a handle with nothing staged. -/
theorem callPost_of_callEnd (hst : StageOk sh.BLOCK db.wal []) {ops : List BatchOp} {o : Outcome Error Nat}
    (h : CallEnd sh db d ops o db' d') : CallPost sh db d o db' d' := by
  have hsame : db.wal.nextBlock + 0 ≤ max db.wal.nextBlock db.wal.walEnd := le_max_left _ _
  intro ho
  cases h with
  | nothing h => exact ⟨kept_refl hst, fun e he => by cases he⟩
  | refused hw =>
    have hk := kept_idle hw hsame id (.inl rfl)
    exact ⟨hk, fun _ _ => ⟨hk, rfl, .refl _ _, .inl ⟨rfl, sameStage_idle hst hw _⟩⟩⟩
  | done hl h1 h2 hw ht =>
    exact ⟨kept_idle hw (le_trans hl.room (le_max_right _ _)) (fun _ => hl.seqs) (inserted_landing hl ht), fun e he => by cases he⟩
  | stopped hl h =>
    have hout := outsideLog_not (le_refl db.wal.nextBlock) hl.room
    have hmoved : db.wal.nextBlock + 1 ≤ max db.wal.nextBlock db.wal.walEnd := le_trans hl.room (le_max_right _ _)
    cases h with
    | cut hf => exact absurd rfl ho
    | unflushedCut hok hf => exact absurd rfl ho
    | dropped hf hs hn hstart hend =>
      exact ⟨⟨⟨_, _, db.table, rfl⟩, .inl rfl, id, ⟨_, hs⟩, hn.ge, hn.le.trans (le_max_left _ _), hstart, hend⟩,
        fun e he => by cases he⟩
    | unflushedDropped hok hf hw => exact ⟨kept_idle hw hmoved id (.inl rfl), fun e he => by cases he⟩
    | failed hf hw =>
      have hk := kept_idle hw hsame id (.inl rfl)
      exact ⟨hk, fun _ _ => ⟨hk, rfl, keeps_torn db (.refl _ _) hout _ _, .inl ⟨rfl, sameStage_idle hst hw _⟩⟩⟩
    | unflushed hok hf hw =>
      have hk := kept_idle hw hmoved (fun _ => hl.seqs) (.inl rfl)
      exact ⟨hk, fun _ _ => ⟨hk, rfl, keeps_landed (.refl _ _) hout _, .inr ⟨hok, _, [], rfl⟩⟩⟩

/-- The same behind a block that has drained what was staged. -/
private theorem callPost_moved {w : WalWriter} (hn : db.wal.nextBlock < w.nextBlock) (hl : w.nextBlock ≤ w.walEnd)
    (hs : w.walStart = db.wal.walStart) (he : w.walEnd = db.wal.walEnd) {d₁ : Device} (hk : Keeps db.OutsideLog d d₁)
    (hr : db.Reported d d₁) (hst : StageOk sh.BLOCK w []) {ops : List BatchOp} {o : Outcome Error Nat}
    (h : CallEnd sh { db with wal := w } d₁ ops o db' d') : CallPost sh db d o db' d' := by
  have hkept : ∀ {w' : WalWriter} {n seq : Nat} {t : MemTable}, Idle sh w w' n → w.nextBlock + n ≤ w.walEnd →
      (db.nextSeq ≤ U64_MAX → seq ≤ U64_MAX) → Inserted sh db.table t →
      Kept sh db { db with wal := w', nextSeq := seq, table := t } := by
    intro w' n seq t hw hend hseq ht
    refine ⟨⟨w', seq, t, rfl⟩, ht, hseq, ⟨[], hw.stage⟩, ?_, ?_, hw.walStart.trans hs, hw.walEnd.trans he⟩
    · show db.wal.nextBlock ≤ w'.nextBlock
      rw [hw.nextBlock]
      omega
    · show w'.nextBlock ≤ _
      rw [hw.nextBlock]
      exact (he ▸ hend).trans (le_max_right _ _)
  intro ho
  cases h with
  | nothing h =>
    exact ⟨⟨⟨w, _, _, rfl⟩, .inl rfl, id, ⟨[], hst⟩, hn.le, (he ▸ hl).trans (le_max_right _ _), hs, he⟩,
      fun e he => by cases he⟩
  | refused hw => exact ⟨hkept hw hl id (.inl rfl), fun _ _ => ⟨hkept hw hl id (.inl rfl), rfl, hk, .inr hr⟩⟩
  | done hland h1 h2 hw ht =>
    have ht' := @inserted_landing sh { db with wal := w } ops _ hland ht
    exact ⟨hkept hw hland.room (fun _ => hland.seqs) ht', fun e he => by cases he⟩
  | stopped hland h =>
    have hout : ¬db.OutsideLog w.nextBlock := outsideLog_not hn.le (he ▸ hland.room)
    cases h with
    | cut hf => exact absurd rfl ho
    | unflushedCut hok hf => exact absurd rfl ho
    | dropped hf hs' hn' hstart hend =>
      refine ⟨⟨⟨_, _, db.table, rfl⟩, .inl rfl, id, ⟨_, hs'⟩, hn.le.trans hn'.ge, ?_, hstart.trans hs, hend.trans he⟩,
        fun e he => by cases he⟩
      exact (hn'.le.trans (he ▸ hl)).trans (le_max_right _ _)
    | unflushedDropped hok hf hw => exact ⟨hkept hw hland.room id (.inl rfl), fun e he => by cases he⟩
    | failed hf hw =>
      have hkeep := hkept hw hl id (.inl rfl)
      exact ⟨hkeep, fun _ _ => ⟨hkeep, rfl, (hk.put hout _ _).advance, .inr (hr.more rfl)⟩⟩
    | unflushed hok hf hw =>
      have hkeep := hkept hw hland.room (fun _ => hland.seqs) (.inl rfl)
      exact ⟨hkeep, fun _ _ => ⟨hkeep, rfl, (hk.put hout _ _).advance.advance, .inr (hr.more rfl)⟩⟩

theorem write_staged (hopen : db.opened = true) (hst : StageOk sh.BLOCK db.wal rs) (batch : WriteBatch sh) :
    (write sh batch).wp (CallPost sh db d) db d := by
  by_cases hrs : rs = []
  · subst hrs
    refine Prog.wp_mono (write_spec hopen hst batch) ?_
    intro o db' d' h
    exact callPost_of_callEnd hst h
  rw [write, Prog.wp_bind, wp_ensureOpen, if_pos hopen, Prog.andThen_ok, Prog.wp_bind, Prog.wp_get, Prog.andThen_ok]
  split
  · exact fun _ => ⟨kept_refl hst, fun e he => by cases he⟩
  rename_i hne
  rw [Prog.wp_bind]
  cases hcheck : checkBatch sh db.table batch.ops with
  | error e => exact callPost_refused hst e
  | ok u =>
    have hpos : db.wal.stagedBytes > 0 := by
      rw [WalWriter.stagedBytes, hst.stageLen_eq]
      exact Nat.pos_of_ne_zero fun h0 => hrs (lens_eq_zero.mp h0)
    rw [Prog.wp_ofExcept_ok, Prog.andThen_ok, if_pos hpos, Prog.wp_bind, onWal, Prog.wp_zoom]
    refine Prog.wp_mono (commit_spec hst hrs) ?_
    have hfailed : ∀ {w : WalWriter} {d' : Device}, StageOk sh.BLOCK w rs → w.nextBlock = db.wal.nextBlock →
        w.walStart = db.wal.walStart → w.walEnd = db.wal.walEnd → Keeps db.OutsideLog d d' →
        Rejected sh db d { db with wal := w } d' := by
      intro w d' h hn hs he hk
      exact ⟨⟨⟨w, _, _, rfl⟩, .inl rfl, id, ⟨rs, h⟩, hn.ge, hn.le.trans (le_max_left _ _), hs, he⟩, rfl, hk,
        .inl ⟨rfl, sameStage_of_stageOk hst h⟩⟩
    rintro o w' d' (⟨rfl, rfl, rfl⟩ | ⟨hroom, ⟨k, rfl, rfl, hf⟩ | ⟨hok, rfl, rfl, hf⟩⟩)
    · exact (hfailed hst rfl rfl rfl (.refl _ _)).callPost
    · have hrej := hfailed hst.sealed rfl rfl rfl
        (keeps_torn db (.refl _ d) (outsideLog_not le_rfl hroom) (blockOf sh.BLOCK rs) k)
      rcases hf with ⟨-, rfl⟩ | ⟨-, rfl⟩ | ⟨-, rfl⟩
      · exact hrej.callPost
      · exact hrej.callPost
      · exact hrej.callPost
    · have hn : db.wal.nextBlock < db.wal.wrote.nextBlock := Nat.lt_succ_self _
      have hk : Keeps db.OutsideLog d (db.landed d (blockOf sh.BLOCK rs)) :=
        keeps_landed (.refl _ _) (outsideLog_not le_rfl hroom) _
      have hr : db.Reported d (db.landed d (blockOf sh.BLOCK rs)) := ⟨hok, _, [], rfl⟩
      have hrej : Rejected sh db d { db with wal := db.wal.wrote } (db.landed d (blockOf sh.BLOCK rs)) :=
        ⟨⟨⟨_, _, _, rfl⟩, .inl rfl, id, ⟨[], hst.wrote⟩, hn.le, le_trans hroom (le_max_right _ _), rfl, rfl⟩, rfl, hk, .inr hr⟩
      rcases hf with ⟨hf, rfl⟩ | ⟨k, ⟨hf, rfl⟩ | ⟨hf, rfl⟩ | ⟨hf, rfl⟩⟩
      · rw [Prog.andThen_ok]
        split
        · exact hrej.callPost
        · dsimp only
          rw [Prog.wp_bind, Prog.wp_get, Prog.andThen_ok]
          refine Prog.wp_mono (@writeGroup_spec sh { db with wal := db.wal.wrote } _ _ hst.wrote hne batch.valid
            (Nat.le_of_not_lt ‹_›) hcheck) ?_
          intro o db' d' h
          exact callPost_moved hn hroom rfl rfl hk hr hst.wrote h
      · exact hrej.callPost
      · exact hrej.callPost
      · exact hrej.callPost

/-! ### No group stays open -/

/-- No group of records is left open, unless the handle is gone. -/
def Shut {α : Type} (o : Outcome Error α) (db : Db) (_ : Device) : Prop := o ≠ .cut → db.wal.groupOpen = false

theorem shut_failCommit {α : Type} (hw : db.wal.groupOpen = false) (mark : StageMark) (n : Nat) (e : Error) :
    (failCommit mark n e : Prog Db Error α).wp Shut db d := by
  rw [failCommit, Prog.wp_bind, rollbackCommit, Prog.wp_bind, Prog.wp_get, Prog.andThen_ok]
  split
  · rw [Prog.wp_set, Prog.andThen_ok, Prog.wp_throw]
    exact fun _ => rfl
  split
  · rw [Prog.wp_throw, Prog.andThen_err]
    exact fun _ => hw
  · rw [Prog.wp_set, Prog.andThen_ok, Prog.wp_throw]
    exact fun _ => hw

/-- A commit leaves it to the appends whether a group is open. -/
theorem shut_commit (hw : db.wal.groupOpen = false) : (onWal WalWriter.commit).wp Shut db d := by
  have hflush : ∀ {w : WalWriter} {d' : Device}, w.groupOpen = false →
      (Prog.flush Error.device).wp (fun o w' d' => Shut o { db with wal := w' } d') w d' := by
    intro w d' h
    rw [Prog.wp_flush]
    cases d'.fate <;> exact fun _ => h
  rw [onWal, Prog.wp_zoom, wp_commit]
  split
  · rw [wp_writeStage]
    split
    · exact fun _ => hw
    · cases d.fate with
      | ok =>
        dsimp only
        rw [Prog.andThen_ok]
        exact hflush hw
      | fail k => exact fun _ => hw
      | cut k => exact fun _ => hw
      | drop k => exact fun _ => hw
  · exact hflush hw

theorem shut_commitStaged (hw : db.wal.groupOpen = false) (mark : StageMark) (n : Nat) :
    (commitStaged mark n).wp Shut db d := by
  rw [commitStaged, Prog.wp_bind, Prog.wp_attempt]
  refine Prog.wp_mono (shut_commit hw) ?_
  intro o db' d' h
  cases o with
  | ok u => exact fun _ => h (by simp)
  | cut => exact h
  | dropped => exact h
  | err e =>
    dsimp only [Prog.andThen_ok]
    rw [Prog.wp_bind, Prog.wp_get, Prog.andThen_ok]
    exact shut_failCommit (h (by simp)) mark _ e

/-- Behind its commit a call changes the counter and the memtable only. -/
private theorem shut_finish (hw : db.wal.groupOpen = false) (mark : StageMark) (n seq ret : Nat) (x : Except Error MemTable) :
    (do
      commitStaged mark n
      Prog.modify fun db => { db with nextSeq := seq }
      let table ← Prog.ofExcept x
      Prog.modify fun db => { db with table := table }
      return ret : Prog Db Error Nat).wp Shut db d := by
  rw [Prog.wp_bind]
  refine Prog.wp_mono (shut_commitStaged hw mark n) ?_
  intro o db' d' h
  cases o with
  | err e => exact fun _ => h (by simp)
  | cut => exact fun hc => absurd rfl hc
  | dropped => exact fun _ => h (by simp)
  | ok u =>
    rw [Prog.andThen_ok, Prog.wp_bind, Prog.wp_modify, Prog.andThen_ok, Prog.wp_bind]
    cases x with
    | error e => exact fun _ => h (by simp)
    | ok t => exact fun _ => h (by simp)

theorem shut_commitMutation (hst : StageOk sh.BLOCK db.wal rs) (hw : db.wal.groupOpen = false) (m : Mutation) :
    (commitMutation sh m).wp Shut db d := by
  rw [commitMutation, Prog.wp_bind, wp_ensureOpen]
  split
  swap
  · exact fun _ => hw
  rw [Prog.andThen_ok, Prog.wp_bind, Prog.wp_get, Prog.andThen_ok, Prog.wp_bind]
  cases m.check sh db.table with
  | error e => exact fun _ => hw
  | ok u =>
    rw [Prog.wp_ofExcept_ok, Prog.andThen_ok]
    split
    · exact fun _ => hw
    dsimp only
    rw [Prog.wp_bind, m.append_eq, stageAppend, Prog.wp_bind, Prog.wp_attempt, onWal, Prog.wp_zoom]
    refine Prog.wp_mono (m.op.append_spec hst (db.nextSeq + 1) false) ?_
    intro o w' d' hp
    cases o with
    | ok u =>
      have hshut : w'.groupOpen = false := by
        obtain ⟨-, -, -, ⟨-, rfl, -⟩ | ⟨-, -, -, rfl, -⟩⟩ := hp <;> rfl
      dsimp only [Prog.andThen_ok]
      rw [Prog.wp_pure, Prog.andThen_ok]
      exact @shut_finish { db with wal := w' } d' hshut _ _ _ _ _
    | err e =>
      have hshut : w'.groupOpen = false := by
        rcases hp with ⟨rfl, -⟩ | ⟨-, -, k, -, rfl, -⟩ <;> exact hw
      dsimp only [Prog.andThen_ok]
      refine Prog.wp_mono (@shut_failCommit { db with wal := w' } d' Unit hshut _ 0 e) ?_
      intro o db' d'' h
      cases o with
      | ok u => exact @shut_finish db' d'' (h (by simp)) _ _ _ _ _
      | err e => exact fun _ => h (by simp)
      | cut => exact fun hc => absurd rfl hc
      | dropped => exact fun _ => h (by simp)
    | cut => exact fun hc => absurd rfl hc
    | dropped =>
      obtain ⟨-, -, k, -, rfl, -⟩ := hp
      exact fun _ => hw

/-- The appends of a group that fits: the last one closes it. -/
private theorem shut_stageOps (ops : List BatchOp) (n : Nat) (hst : StageOk sh.BLOCK db.wal rs)
    (hfit : lens rs + lens (groupRecords n ops) ≤ sh.BLOCK) (hne : ops = [] → db.wal.groupOpen = false) :
    (stageOps sh ⟨0, db.wal.nextBlock⟩ n ops).wp Shut db d := by
  induction ops generalizing n rs db with
  | nil => exact fun _ => hne rfl
  | cons op ops ih =>
    rw [groupRecords, lens_cons] at hfit
    rw [stageOps, Prog.wp_bind]
    refine Prog.wp_mono (stageAppend_spec hst op n (!ops.isEmpty) (by omega)) ?_
    rintro o db' d' ⟨rfl, hp⟩
    cases o with
    | err e =>
      subst hp
      exact fun _ => rfl
    | cut => exact hp.elim
    | dropped => exact hp.elim
    | ok x =>
      obtain ⟨rfl, hk, hv⟩ := hp
      have hst' := hst.stageRecord (r := op.record n (!ops.isEmpty)) (by omega)
      rw [Prog.andThen_ok]
      refine @ih { db with wal := db.wal.stageRecord (op.record n (!ops.isEmpty)) } _ (n + 1) hst'
        (by rw [lens_append, lens_cons, lens_nil]; omega) ?_
      rintro rfl
      rfl

/-- The group of a batch, on a handle with nothing staged. -/
private theorem shut_writeGroup (hst : StageOk sh.BLOCK db.wal []) (hw : db.wal.groupOpen = false) {ops : List BatchOp}
    (hwal : (ops.map BatchOp.needWal).sum ≤ sh.BLOCK) (first seq ret : Nat) (x : Except Error MemTable) :
    (do
      stageOps sh db.stageMark first ops
      commitStaged db.stageMark ops.length
      Prog.modify fun db => { db with nextSeq := seq }
      let table ← Prog.ofExcept x
      Prog.modify fun db => { db with table := table }
      return ret : Prog Db Error Nat).wp Shut db d := by
  have hmark : db.stageMark = ⟨0, db.wal.nextBlock⟩ := by
    simp only [stageMark, WalWriter.stagedBytes, hst.stageLen_eq, lens_nil]
  have hfit := (lens_groupRecords_le first ops).trans hwal
  rw [Prog.wp_bind, hmark]
  refine Prog.wp_mono (shut_stageOps ops _ hst (by simpa using hfit) fun _ => hw) ?_
  intro o db' d' h
  cases o with
  | ok u => exact shut_finish (h (by simp)) _ _ _ _ _
  | err e => exact fun _ => h (by simp)
  | cut => exact fun hc => absurd rfl hc
  | dropped => exact fun _ => h (by simp)

theorem shut_write (hst : StageOk sh.BLOCK db.wal rs) (hw : db.wal.groupOpen = false) (batch : WriteBatch sh) :
    (write sh batch).wp Shut db d := by
  rw [write, Prog.wp_bind, wp_ensureOpen]
  split
  swap
  · exact fun _ => hw
  rw [Prog.andThen_ok, Prog.wp_bind, Prog.wp_get, Prog.andThen_ok]
  split
  · exact fun _ => hw
  rw [Prog.wp_bind]
  cases hcheck : checkBatch sh db.table batch.ops with
  | error e => exact fun _ => hw
  | ok u =>
    obtain ⟨hwal, -, -⟩ := checkBatch_ok hcheck
    rw [Prog.wp_ofExcept_ok, Prog.andThen_ok]
    by_cases hpos : db.wal.stagedBytes > 0
    · have hne : rs ≠ [] := by
        rintro rfl
        rw [WalWriter.stagedBytes, hst.stageLen_eq, lens_nil] at hpos
        omega
      have hdrained : (onWal WalWriter.commit).wp (fun o db' _ => o = .ok () → StageOk sh.BLOCK db'.wal []) db d := by
        rw [onWal, Prog.wp_zoom]
        refine Prog.wp_mono (commit_spec hst hne) ?_
        rintro o w' d' (⟨rfl, -⟩ | ⟨-, ⟨k, -, -, hf⟩ | ⟨-, rfl, -⟩⟩) ho
        · cases ho
        · rcases hf with ⟨-, rfl⟩ | ⟨-, rfl⟩ | ⟨-, rfl⟩ <;> cases ho
        · exact hst.wrote
      rw [if_pos hpos, Prog.wp_bind]
      refine Prog.wp_mono (Prog.wp_and hdrained (shut_commit hw)) ?_
      rintro o db' d' ⟨hst', h⟩
      cases o with
      | err e => exact fun _ => h (by simp)
      | cut => exact fun hc => absurd rfl hc
      | dropped => exact fun _ => h (by simp)
      | ok u =>
        rw [Prog.andThen_ok]
        split
        · exact fun _ => h (by simp)
        · dsimp only
          rw [Prog.wp_bind, Prog.wp_get, Prog.andThen_ok]
          exact shut_writeGroup (hst' rfl) (h (by simp)) hwal _ _ _ _
    · have hnil : rs = [] := by
        rw [WalWriter.stagedBytes, hst.stageLen_eq] at hpos
        exact lens_eq_zero.mp (by omega)
      subst hnil
      rw [if_neg hpos]
      split
      · exact fun _ => hw
      · dsimp only
        rw [Prog.wp_bind, Prog.wp_get, Prog.andThen_ok]
        exact shut_writeGroup hst hw hwal _ _ _ _

end Db

/-- Every call on an open handle, whatever is staged. -/
theorem Call.staged {db : Db} {d : Device} {rs : List Record} (hopen : db.opened = true) (hst : StageOk sh.BLOCK db.wal rs)
    (c : Call sh) : c.run.wp (Db.CallPost sh db d) db d := by
  cases c with
  | put key val => exact Db.commitMutation_staged hopen hst _
  | putWithTtl key val expireAt => exact Db.commitMutation_staged hopen hst _
  | delete key => exact Db.commitMutation_staged hopen hst _
  | write batch => exact Db.write_staged hopen hst batch
  | deleteRange start stop =>
    show (Db.deleteRange sh start stop).wp _ db d
    rw [Db.deleteRange, Prog.wp_bind, Db.wp_ensureOpen, if_pos hopen, Prog.andThen_ok, Prog.wp_bind, Prog.wp_get,
      Prog.andThen_ok]
    split
    · exact fun _ => ⟨Db.kept_refl hst, fun e he => by cases he⟩
    · exact Db.commitMutation_staged hopen hst _

theorem Call.shut {db : Db} {d : Device} {rs : List Record} (hst : StageOk sh.BLOCK db.wal rs)
    (hw : db.wal.groupOpen = false) (c : Call sh) : c.run.wp Db.Shut db d := by
  cases c with
  | put key val => exact Db.shut_commitMutation hst hw _
  | putWithTtl key val expireAt => exact Db.shut_commitMutation hst hw _
  | delete key => exact Db.shut_commitMutation hst hw _
  | write batch => exact Db.shut_write hst hw batch
  | deleteRange start stop =>
    show (Db.deleteRange sh start stop).wp _ db d
    rw [Db.deleteRange, Prog.wp_bind, Db.wp_ensureOpen]
    split
    swap
    · exact fun _ => hw
    rw [Prog.andThen_ok, Prog.wp_bind, Prog.wp_get, Prog.andThen_ok]
    split
    · exact fun _ => hw
    · exact Db.shut_commitMutation hst hw _

end Horton
