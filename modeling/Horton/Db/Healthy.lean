import Horton.Db.Frame

/-!
# A healthy device

What the calls do on a device that answers every request: a batch is refused by its capacity check alone, by the counter or
by a full log, and lands otherwise; a flush that returns has emptied the memtable and left a block of the log free.
-/

namespace Horton

open BlockDev

/-- Every answer still to come is a success. -/
def Healthy (d : Device) : Prop := d.fates = []

theorem Healthy.fate {d : Device} (h : Healthy d) : d.fate = .ok := by
  rw [Device.fate, h]
  rfl

/-- A program leaves no answers that were not there before. -/
theorem Healthy.of_suffix {d d' : Device} (h : Healthy d) (hs : d'.fates <:+ d.fates) : Healthy d' :=
  List.suffix_nil.mp (h ▸ hs)

theorem Healthy.advance {d : Device} (h : Healthy d) : Healthy d.advance := h.of_suffix (List.tail_suffix _)

namespace Db

/-- An open handle between two calls. -/
structure Ready (sh : Shape) (db : Db) : Prop where
  opened : db.opened = true
  stage : StageOk sh.BLOCK db.wal []
  walStart_lt : db.cfg.walStart < db.cfg.walEnd
  walEnd : db.wal.walEnd = db.cfg.walEnd
  slots : db.SlotsInside
  arena : db.table.len = 0 → db.table.arena = []

variable {sh : Shape} {db : Db} {d : Device}

/-! ### Writes -/

/-- A batch that fails its capacity check leaves everything as it is. -/
theorem write_refused (h : db.Ready sh) {batch : WriteBatch sh} (hne : batch.ops ≠ []) {e : Error}
    (hc : checkBatch sh db.table batch.ops = .error e) : write sh batch db d = (.err e, db, d) := by
  have hw : (write sh batch).wp (fun o db' d' => (o, db', d') = (.err e, db, d)) db d := by
    rw [write, Prog.wp_bind, wp_ensureOpen, if_pos h.opened, Prog.andThen_ok, Prog.wp_bind, Prog.wp_get, Prog.andThen_ok,
      if_neg hne, Prog.wp_bind, hc, Prog.wp_ofExcept_error, Prog.andThen_err]
  exact hw

/-- An append of checked sizes stages its record. -/
theorem stageAppend_ok {rs : List Record} (hst : StageOk sh.BLOCK db.wal rs) {op : BatchOp}
    (hk : op.key.length ≤ U16_MAX) (hv : op.val.length ≤ U16_MAX) {seq : Nat} {more : Bool}
    (hfit : lens rs + (op.record seq more).len ≤ sh.BLOCK) (mark : StageMark) :
    stageAppend mark (op.append sh seq more) db d = (.ok (), { db with wal := db.wal.stageRecord (op.record seq more) }, d) := by
  have hw : (stageAppend mark (op.append sh seq more)).wp (fun o db' d' => (o, db', d') =
      (.ok (), { db with wal := db.wal.stageRecord (op.record seq more) }, d)) db d := by
    rw [stageAppend, Prog.wp_bind, Prog.wp_attempt, onWal, Prog.wp_zoom, Prog.wp, BatchOp.append_ok hst hk hv hfit]
    rfl
  exact hw

/-- The appends of a batch of checked sizes stage its group. -/
private theorem stageOps_ok {rs : List Record} (ops : List BatchOp) (n : Nat) (hst : StageOk sh.BLOCK db.wal rs)
    (hops : ∀ op ∈ ops, op.Valid sh) (hfit : lens rs + lens (groupRecords n ops) ≤ sh.BLOCK) (mark : StageMark) :
    ∃ w, stageOps sh mark n ops db d = (.ok (), { db with wal := w }, d) ∧ Staged sh db.wal w (rs ++ groupRecords n ops) := by
  induction ops generalizing n rs db with
  | nil => exact ⟨db.wal, rfl, by simpa [groupRecords] using hst, rfl, rfl, rfl⟩
  | cons op ops ih =>
    rw [groupRecords, lens_cons] at hfit
    have hst' := hst.stageRecord (r := op.record n (!ops.isEmpty)) (by omega)
    obtain ⟨w, hrun, hstaged⟩ := @ih { db with wal := db.wal.stageRecord (op.record n (!ops.isEmpty)) } _ (n + 1) hst'
      (fun o ho => hops o (List.mem_cons_of_mem _ ho)) (by rw [lens_append, lens_cons, lens_nil]; omega)
    refine ⟨w, ?_, by simpa [groupRecords] using hstaged.stage, hstaged.nextBlock, hstaged.walStart, hstaged.walEnd⟩
    rw [stageOps]
    show Prog.bind _ _ db d = _
    have hop := hops op List.mem_cons_self
    rw [Prog.bind, stageAppend_ok hst (hop.key_le.trans sh.assertKey.2) (hop.val_le.trans sh.assertVal) (by omega)]
    exact hrun

/-- A log with a block left takes the staged records. -/
theorem commitStaged_ok {rs : List Record} (hst : StageOk sh.BLOCK db.wal rs) (hne : rs ≠ [])
    (hroom : db.wal.nextBlock < db.wal.walEnd) (hd : Healthy d) (mark : StageMark) (n : Nat) :
    ∃ d', commitStaged mark n db d = (.ok (), { db with wal := db.wal.wrote }, d') ∧ Healthy d' := by
  have hpos : db.wal.stageLen > 0 := by
    rw [hst.stageLen_eq]
    exact Nat.pos_of_ne_zero fun h0 => hne (lens_eq_zero.mp h0)
  have hw : (commitStaged mark n).wp (fun o db' d' => o = .ok () ∧ db' = { db with wal := db.wal.wrote } ∧ Healthy d') db d := by
    rw [commitStaged, Prog.wp_bind, Prog.wp_attempt, onWal, Prog.wp_zoom, wp_commit, if_pos hpos, wp_writeStage,
      if_neg (by omega), hd.fate]
    dsimp only
    rw [Prog.andThen_ok, Prog.wp_flush]
    have hd' : Healthy (d.put db.wal.nextBlock db.wal.padded db.wal.padded).advance := Healthy.advance hd
    rw [hd'.fate]
    exact ⟨rfl, rfl, hd'.advance⟩
  refine ⟨(commitStaged mark n db d).2.2, ?_, hw.2.2⟩
  exact Prod.ext hw.1 (Prod.ext hw.2.1 rfl)

/-- A replayed record takes one more slot of the memtable. -/
private theorem len_replayRecord {r : Record} {t t' : MemTable} (h : WalWriter.replayRecord sh t r = .ok t') :
    t'.len = t.len + 1 := by
  have happly : ∀ {x : Except Error Plan} {key val : Bytes} {seq : Nat} {tomb rdel : Bool} {expireAt : Nat},
      (x >>= fun p => pure (t.apply p key val seq tomb rdel expireAt)) = Except.ok t' → t'.len = t.len + 1 := by
    intro x key val seq tomb rdel expireAt hx
    cases x with
    | error e => cases hx
    | ok p =>
      obtain rfl := Except.ok.inj hx
      simp only [MemTable.len, MemTable.apply, List.length_append, List.length_cons, List.length_take, List.length_drop]
      omega
  unfold WalWriter.replayRecord at h
  split at h <;> exact happly h

theorem len_replayAll {rs : List Record} {t t' : MemTable} (h : replayAll sh t rs = .ok t') :
    t'.len = t.len + rs.length := by
  induction rs generalizing t with
  | nil =>
    obtain rfl := Except.ok.inj h
    rfl
  | cons r rs ih =>
    rw [replayAll, List.foldlM_cons] at h
    cases hr : WalWriter.replayRecord sh t r with
    | error e => rw [hr] at h; cases h
    | ok t₁ =>
      rw [hr] at h
      rw [ih h, len_replayRecord hr, List.length_cons]
      omega

/-- A batch that passes its capacity check lands when the log has a block left and the counter has room. -/
theorem write_ok (h : db.Ready sh) (hd : Healthy d) {batch : WriteBatch sh} (hne : batch.ops ≠ [])
    (hc : checkBatch sh db.table batch.ops = .ok ()) (hseq : db.nextSeq + batch.ops.length ≤ U64_MAX)
    (hroom : db.wal.nextBlock < db.wal.walEnd) :
    ∃ db' d', write sh batch db d = (.ok (db.nextSeq + 1), db', d') ∧ db'.Ready sh ∧ Healthy d' := by
  obtain ⟨hwal, hslots, harena⟩ := checkBatch_ok hc
  have hpos := List.length_pos_iff.mpr hne
  have hfit : lens (groupRecords (db.nextSeq + 1) batch.ops) ≤ sh.BLOCK := (lens_groupRecords_le _ _).trans hwal
  obtain ⟨w, hstage, hw⟩ := @stageOps_ok sh db d [] batch.ops (db.nextSeq + 1) h.stage batch.valid (by simpa using hfit)
    db.stageMark
  rw [List.nil_append] at hw
  have hrs : groupRecords (db.nextSeq + 1) batch.ops ≠ [] := by
    intro h0
    have := length_groupRecords (db.nextSeq + 1) batch.ops
    rw [h0, List.length_nil] at this
    omega
  obtain ⟨d', hcommit, hd'⟩ := @commitStaged_ok sh { db with wal := w } d _ hw.stage hrs
    (by rw [hw.nextBlock, hw.walEnd]; exact hroom) hd db.stageMark batch.ops.length
  obtain ⟨t, ht⟩ := insertOps_ok batch.valid hslots harena (db.nextSeq + 1)
  have hrun : (write sh batch).wp (fun o db' d'' => o = .ok (db.nextSeq + 1) ∧ db' =
      { db with wal := w.wrote, nextSeq := db.nextSeq + 1 + (batch.ops.length - 1), table := t } ∧ d'' = d') db d := by
    rw [write, Prog.wp_bind, wp_ensureOpen, if_pos h.opened, Prog.andThen_ok, Prog.wp_bind, Prog.wp_get, Prog.andThen_ok,
      if_neg hne, Prog.wp_bind, hc, Prog.wp_ofExcept_ok, Prog.andThen_ok,
      if_neg (by simp [WalWriter.stagedBytes, h.stage.stageLen_eq]), if_neg (by omega)]
    dsimp only
    rw [Prog.wp_bind, Prog.wp_get, Prog.andThen_ok, Prog.wp_bind, Prog.wp, hstage, Prog.andThen_ok, Prog.wp_bind, Prog.wp,
      hcommit, Prog.andThen_ok, Prog.wp_bind, Prog.wp_modify, Prog.andThen_ok, Prog.wp_bind, ht, Prog.wp_ofExcept_ok,
      Prog.andThen_ok, Prog.wp_bind, Prog.wp_modify, Prog.andThen_ok, Prog.wp_pure]
    exact ⟨rfl, rfl, rfl⟩
  refine ⟨_, d', Prod.ext hrun.1 (Prod.ext hrun.2.1 hrun.2.2), ?_, hd'⟩
  refine ⟨h.opened, hw.stage.wrote, h.walStart_lt, hw.walEnd.trans h.walEnd, h.slots, ?_⟩
  intro h0
  rw [insertOps_eq] at ht
  have := len_replayAll ht
  rw [show t.len = 0 from h0, length_groupRecords] at this
  omega

/-! ### Flushes -/

open Prog in
private theorem consumes_commitEdit (layout : ManifestLayout) (e : ManifestEdit) :
    Consumes (Manifest.commitEdit sh layout e) := by
  have hcopy : ∀ (m : Manifest) (seq start n i : Nat), Consumes (Manifest.writeCopy sh m e seq start i n) := by
    intro m seq start n
    induction n with
    | zero => exact fun _ => consumes_pure _
    | succ n ih =>
      exact fun i => .bind (consumes_ofExcept _) fun _ => .bind (consumes_writeBlock _ _ _) fun _ => ih (i + 1)
  refine .bind consumes_get fun m => .bind (consumes_ofExcept _) fun _ => ?_
  split
  · exact consumes_throw _
  · exact .bind (hcopy _ _ _ _ _) fun _ => .bind (consumes_flush _) fun _ => consumes_set _

open Prog in
private theorem consumes_commit : Consumes WalWriter.commit := by
  refine .bind consumes_get fun w => ?_
  split
  · refine .bind (.bind consumes_get fun w => ?_) fun _ => consumes_flush _
    split
    · exact consumes_throw _
    · exact .bind (consumes_set _) fun _ => .bind (consumes_writeBlock _ _ _) fun _ => consumes_modify _
  · exact consumes_flush _

open Prog in
theorem consumes_flush : Consumes (flush sh) := by
  have hopen : Consumes ensureOpen := by
    refine .bind consumes_get fun db => ?_
    split
    · exact consumes_pure _
    · exact consumes_throw _
  refine .bind hopen fun _ => .bind (.zoom consumes_commit _ _) fun _ => .bind consumes_get fun db => ?_
  split
  · refine .bind consumes_get fun db => ?_
    split
    · exact consumes_pure _
    · exact .bind (.zoom (consumes_commitEdit _ _) _ _) fun _ => consumes_modify _
  split
  · exact consumes_throw _
  refine .bind (consumes_ofExcept _) fun plan => .bind (consumes_ofExcept _) fun rdelPlan => ?_
  refine .bind (consumes_ofExcept _) fun slot => .bind (consumes_writeFlushTable _ _ _ _ _) fun _ => ?_
  split
  · exact consumes_throw _
  refine .bind (consumes_ofExcept _) fun tref => .bind (consumes_ofExcept _) fun e => ?_
  exact .bind (.zoom (consumes_commitEdit _ _) _ _) fun _ => consumes_modify _

/-- Which manifest the handle holds is of no matter for its next call. -/
private theorem Ready.withManifest (h : db.Ready sh) (m : Manifest) : ({ db with manifest := m } : Db).Ready sh :=
  ⟨h.opened, h.stage, h.walStart_lt, h.walEnd, h.slots, h.arena⟩

private theorem Ready.wrapped (h : db.Ready sh) :
    ({ db with wal := db.wal.resetTo db.cfg.walStart } : Db).Ready sh :=
  ⟨h.opened, h.stage.resetTo _, h.walStart_lt, h.walEnd, h.slots, h.arena⟩

private theorem Ready.flushed (h : db.Ready sh) (slot : Nat) :
    ({ db with slots := db.slots.claim slot, table := db.table.clear } : Db).Ready sh := by
  obtain ⟨h1, h2, h3⟩ := SlotMap.sameLayout_claim db.slots slot
  refine ⟨h.opened, h.stage, h.walStart_lt, h.walEnd, ?_, fun _ => rfl⟩
  intro i hi
  show db.cfg.tblStart ≤ (db.slots.claim slot).slotBase i ∧
    (db.slots.claim slot).slotBase i + (db.slots.claim slot).slotBlocks ≤ db.cfg.tblEnd
  rw [SlotMap.slotBase, h1, h2]
  exact h.slots i (h3 ▸ hi)

/-- A flush leaves the handle between calls; one that returns has emptied the memtable and left a block of the log free. -/
theorem flush_ready (h : db.Ready sh) (hd : Healthy d) : (flush sh).wp (fun o db' d' => db'.Ready sh ∧ Healthy d' ∧
    (o = .ok () → db'.table.len = 0 ∧ db'.wal.nextBlock < db'.wal.walEnd) ∧
    (o ≠ .ok () → db'.table = db.table)) db d := by
  have hhealthy : (flush sh).wp (fun _ _ d' => Healthy d') db d := hd.of_suffix (consumes_flush db d)
  refine Prog.wp_mono (Prog.wp_and hhealthy (flush_spec h.opened h.stage h.slots)) ?_
  rintro o db' d' ⟨hd', hend⟩
  have hwal := h.walStart_lt
  have hwe := h.walEnd
  cases hend with
  | early hk ho => exact ⟨h, hd', fun hc => absurd hc ho, fun _ => rfl⟩
  | clean hf he hw =>
    refine ⟨h, hd', fun _ => ⟨by simpa [MemTable.isEmpty] using he, ?_⟩, fun _ => rfl⟩
    simp only [wraps, decide_eq_false_iff_not] at hw
    omega
  | wrap hf he hw hc =>
    rename_i m
    cases o with
    | ok u =>
      refine ⟨(h.withManifest m).wrapped, hd', fun _ => ⟨?_, ?_⟩, fun hc => absurd rfl hc⟩
      · show db.table.len = 0
        simpa [MemTable.isEmpty] using he
      · show db.cfg.walStart < db.wal.walEnd
        omega
    | err x => exact ⟨h.withManifest m, hd', (fun hc => by cases hc), fun _ => rfl⟩
    | cut => exact ⟨h.withManifest m, hd', (fun hc => by cases hc), fun _ => rfl⟩
    | dropped => exact ⟨h.withManifest m, hd', (fun hc => by cases hc), fun _ => rfl⟩
  | table hf hp hrun hid htref he hc =>
    rename_i m d₁ plan rdelPlan slot tref e
    cases o with
    | ok u =>
      have hflushed := (h.withManifest m).flushed slot
      cases hw : db.wraps with
      | true =>
        simp only [afterFlush, hw, if_true]
        exact ⟨hflushed.wrapped, hd', fun _ => ⟨rfl, show db.cfg.walStart < db.wal.walEnd by omega⟩, fun hc => absurd rfl hc⟩
      | false =>
        simp only [afterFlush, hw, Bool.false_eq_true, if_false]
        simp only [wraps, decide_eq_false_iff_not] at hw
        exact ⟨hflushed, hd', fun _ => ⟨rfl, show db.wal.nextBlock < db.wal.walEnd by omega⟩, fun hc => absurd rfl hc⟩
    | err x => exact ⟨h.withManifest m, hd', (fun hc => by cases hc), fun _ => rfl⟩
    | cut => exact ⟨h.withManifest m, hd', (fun hc => by cases hc), fun _ => rfl⟩
    | dropped => exact ⟨h.withManifest m, hd', (fun hc => by cases hc), fun _ => rfl⟩

/-! ### After an `open` -/

/-- `open` on a new handle leaves it ready for its first call. -/
theorem ready_of_open {cfg : Config} {r : OpenReport} {db' : Db} {d' : Device} (hlen : ∀ i, (d.blocks i).length = sh.BLOCK)
    (h : open_ sh (Db.new sh cfg) d = (.ok r, db', d')) : db'.Ready sh := by
  obtain ⟨-, hcfg, -, hwe, -, ho⟩ := Prog.wp_run (@open_spec sh (Db.new sh cfg) rfl d) h
  obtain ⟨stage, maxSeq, hwal, hst, -⟩ := ho.wal
  have hlen' : stage.length = sh.BLOCK := by
    rcases hst with rfl | ⟨i, -, -, rfl⟩
    · exact Bytes.length_zeros sh.BLOCK
    · exact hlen i
  refine ⟨ho.opened, ?_, ?_, ?_, slotsInside_of_opened ho hcfg, ?_⟩
  · rw [hwal]
    exact stageOk_recovered hlen' ..
  · rw [hcfg]
    exact (Config.regions_of_check ho.regions).wal_lt
  · rw [hwe, hcfg]
    rfl
  · intro h0
    have hrs := len_replayAll ho.table
    rw [h0] at hrs
    have hnil : (logWalk (Db.new sh cfg).cfg d db'.manifest).1 = [] := List.length_eq_zero_iff.mp (by omega)
    have htable := ho.table
    rw [hnil] at htable
    rw [← Except.ok.inj htable]
    rfl

end Db

end Horton
