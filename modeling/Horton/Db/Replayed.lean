import Horton.Db.Run

/-!
# What a recovery replays

The log region holds old blocks under new ones, and a torn write uncovers the middle of an old block behind the records
that landed.  Recovery takes whatever decodes there and carries a newer number for a record.  `UncoversNothing` is the
case in which it cannot: every record the walk finds in the torn block was among the new ones or among those that the walk
found there before.  In a run whose torn writes all are of this kind a recovery replays nothing but records of calls.
-/

namespace Horton

open BlockDev GroupLog

variable {sh : Shape} {cfg : Config}

namespace Sys

/-- The power cut that tears the block write of a call uncovers no record: whatever the walk finds in the block is one of
the call's, or one that the walk found in the block before. -/
def UncoversNothing (s : Sys) (c : Call sh) (fates : List Fate) : Prop :=
  ∀ k, fates.headD .ok = .cut k → ∀ r ∈ (summary (Bytes.tear k (blockOf sh.BLOCK (s.db.group c.ops))
    (s.dev.blocks s.db.wal.nextBlock))).recs, r ∈ s.db.group c.ops ∨ r ∈ (summary (s.dev.blocks s.db.wal.nextBlock)).recs

/-- The device answers, or the power is cut. -/
def OnlyCuts (fates : List Fate) : Prop := ∀ f ∈ fates, f = .ok ∨ ∃ k, f = .cut k

/-- What an action is allowed to meet: power cuts, of which those that tear a write of the log uncover nothing and those
that tear a block of the manifest leave one that does not pass its check. -/
def Allowed (s : Sys) (a : Action sh) (fates : List Fate) : Prop :=
  OnlyCuts fates ∧ match a with
    | .call c => s.UncoversNothing c fates
    | .open_ => Manifest.NoForgedCopy sh s.db.cfg.manifestLayout s.dev
    | .table a => a.Legal sh s.db
    | _ => True

/-- A device without records in the log region and without a manifest. -/
structure Unwritten (sh : Shape) (c : Config) (d : Device) : Prop where
  writes : d.writes = []
  length : ∀ j, c.InWal j → (d.blocks j).length = sh.BLOCK
  empty : ∀ j, c.InWal j → (summary (d.blocks j)).recs = []
  blank : Manifest.isBlank (d.blocks (c.manifestLayout.copyStart 0 (Manifest.maxBlocks sh))) = true

inductive Reach (sh : Shape) (cfg : Config) (d : Device) : Sys → Prop
  | start : Reach sh cfg d (init sh cfg d)
  | step {s : Sys} {a : Action sh} {fates : List Fate} (h : Reach sh cfg d s) (ha : s.Allowed a fates) :
      Reach sh cfg d (s.step cfg a fates)

end Sys

/-! ### The invariant -/

/-- A handle of the configuration `c`, open or not. -/
structure HandleOk (sh : Shape) (c : Config) (db : Db) : Prop where
  cfg : db.cfg = c
  walStart : db.wal.walStart = c.walStart
  walEnd : db.wal.walEnd = c.walEnd
  stage : db.wal.stage.length = sh.BLOCK

/-- An open handle: nothing is staged, the device holds its manifest, and its memtable has entries of `appended` only. -/
structure OpenOk (sh : Shape) (c : Config) (db : Db) (d : Device) (appended : List Record) : Prop where
  regions : c.Regions sh
  stage : StageOk sh.BLOCK db.wal []
  next_ge : c.walStart ≤ db.wal.nextBlock
  next_lt : db.wal.nextBlock < 2 ^ 64
  nextSeq : db.nextSeq < 2 ^ 64
  slots : db.SlotsInside
  holds : Manifest.Holds sh c.manifestLayout d db.manifest
  head : c.walStart ≤ db.manifest.walHead
  intact : db.table.Intact
  known : ∀ e ∈ db.table.iter, ∃ r ∈ appended, e = r.entry

structure LogOk (sh : Shape) (c : Config) (d : Device) (appended : List Record) : Prop where
  wf : ∀ r ∈ appended, r.WF
  length : ∀ j, c.InWal j → (d.blocks j).length = sh.BLOCK
  records : ∀ j, c.InWal j → ∀ r ∈ (summary (d.blocks j)).recs, r ∈ appended

/-- A manifest stands on the device whose WAL head is in the log region. -/
def Stands (sh : Shape) (c : Config) (d : Device) : Prop :=
  ∃ m, Manifest.Holds sh c.manifestLayout d m ∧ (m.seq ≠ 0 → c.walStart ≤ m.walHead)

structure SysOk (sh : Shape) (c : Config) (s : Sys) : Prop where
  handle : HandleOk sh c s.db
  log : LogOk sh c s.dev s.appended
  stands : Stands sh c s.dev
  opened : s.db.opened = true → OpenOk sh c s.db s.dev s.appended

/-! ### Power cuts -/

namespace Sys.OnlyCuts

variable {fates fates' : List Fate} {d : Device}

theorem suffix (h : OnlyCuts fates) (hs : fates' <:+ fates) : OnlyCuts fates' := fun f hf => h f (hs.mem hf)

theorem tail (h : OnlyCuts fates) : OnlyCuts fates.tail := h.suffix (List.tail_suffix _)

theorem fate (h : OnlyCuts d.fates) : d.fate = .ok ∨ ∃ k, d.fate = .cut k := by
  unfold Device.fate
  cases hd : d.fates with
  | nil => exact Or.inl rfl
  | cons f fs => exact h f (by simp [hd])

theorem not_fail (h : OnlyCuts fates) (k : Nat) : Fate.fail k ∉ fates := fun hf => by
  rcases h _ hf with h | ⟨j, h⟩ <;> cases h

theorem not_drop (h : OnlyCuts fates) (k : Nat) : Fate.drop k ∉ fates := fun hf => by
  rcases h _ hf with h | ⟨j, h⟩ <;> cases h

end Sys.OnlyCuts

/-! ### Parts of the invariant -/

section Parts

variable {c : Config} {db : Db} {d d' : Device} {appended rs : List Record}

theorem Record.entry_seq (r : Record) : r.entry.seq = r.seq := by
  unfold Record.entry
  cases r.op <;> rfl

theorem HandleOk.new (sh : Shape) (cfg : Config) : HandleOk sh (cfg.resolveLayout sh) (Db.new sh cfg) :=
  ⟨rfl, rfl, rfl, Bytes.length_zeros _⟩

theorem OpenOk.sized (h : OpenOk sh c db d appended) (hb : c.Bounded) (hc : db.cfg = c) (hw : ∀ r ∈ appended, r.WF) :
    db.Sized := by
  refine ⟨hc ▸ hb, h.next_lt, h.nextSeq, ?_⟩
  intro e he
  obtain ⟨r, hr, rfl⟩ := h.known e he
  rw [r.entry_seq]
  exact (hw r hr).seq_lt

/-- Only blocks of the log region matter. -/
theorem LogOk.keeps (h : LogOk sh c d appended) (hk : ∀ j, c.InWal j → d'.blocks j = d.blocks j) :
    LogOk sh c d' appended :=
  ⟨h.wf, fun j hj => by rw [hk j hj]; exact h.length j hj, fun j hj => by rw [hk j hj]; exact h.records j hj⟩

/-- A block of the log is written with the records `rs`, whole or torn. -/
theorem LogOk.put (h : LogOk sh c d appended) (hwf : ∀ r ∈ rs, r.WF) {id : Nat} (data : Bytes) {after : Bytes}
    (hlen : after.length = sh.BLOCK)
    (hrec : ∀ r ∈ (summary after).recs, r ∈ rs ∨ (c.InWal id ∧ r ∈ (summary (d.blocks id)).recs)) :
    LogOk sh c (d.put id data after) (appended ++ rs) := by
  refine ⟨fun r hr => (List.mem_append.mp hr).elim (h.wf r) (hwf r), fun j hj => ?_, fun j hj r hr => ?_⟩
  · by_cases hji : j = id
    · rw [hji, Device.put_blocks_same, hlen]
    · rw [Device.put_blocks_ne _ _ _ hji]
      exact h.length j hj
  · by_cases hji : j = id
    · rw [hji, Device.put_blocks_same] at hr
      rcases hrec r hr with hr | ⟨hid, hr⟩
      · exact List.mem_append_right _ hr
      · exact List.mem_append_left _ (h.records id hid r hr)
    · rw [Device.put_blocks_ne _ _ _ hji] at hr
      exact List.mem_append_left _ (h.records j hj r hr)

/-- A write outside the copies leaves the manifest standing. -/
theorem holds_put {layout : ManifestLayout} {m : Manifest} (h : Manifest.Holds sh layout d m) {id : Nat}
    (hid : ¬ Manifest.InCopies sh layout id) (data after : Bytes) : Manifest.Holds sh layout (d.put id data after) m :=
  h.keeps ((Keeps.refl _ d).put hid data after)

theorem holds_same {layout : ManifestLayout} {m : Manifest} (h : Manifest.Holds sh layout d m)
    (hb : d'.blocks = d.blocks) (hw : d'.writes = d.writes) : Manifest.Holds sh layout d' m :=
  h.keeps (.of_eq _ hb hw)

theorem OpenOk.mono (h : OpenOk sh c db d appended) (rs : List Record) (hb : d'.blocks = d.blocks)
    (hw : d'.writes = d.writes) : OpenOk sh c db d' (appended ++ rs) :=
  { h with
    holds := holds_same h.holds hb hw
    known := fun e he => (h.known e he).imp fun _ hr => ⟨List.mem_append_left _ hr.1, hr.2⟩ }

theorem OpenOk.stands (h : OpenOk sh c db d appended) : Stands sh c d := ⟨_, h.holds, fun _ => h.head⟩

/-- The append position of a call that reaches its block write is in the log region. -/
theorem OpenOk.inWal (h : OpenOk sh c db d appended) (hh : HandleOk sh c db) (hroom : db.wal.nextBlock < db.wal.walEnd) :
    c.InWal db.wal.nextBlock := ⟨h.next_ge, hh.walEnd ▸ hroom⟩

/-- A writer that is idle again fits the handle. -/
theorem Idle.handleOk {n : Nat} {db' : Db} (hw : Idle sh db.wal db'.wal n) (hh : HandleOk sh c db) (hc : db'.cfg = db.cfg) :
    HandleOk sh c db' :=
  ⟨hc.trans hh.cfg, hw.walStart.trans hh.walStart, hw.walEnd.trans hh.walEnd, hw.stage.length_stage⟩

end Parts

/-! ### Calls -/

/-- A closed handle refuses whatever begins with `ensure_open`. -/
theorem Db.closed_bind {db : Db} (h : db.opened = false) {α : Type} (p : Unit → Prog Db Error α) (d : Device) :
    (Db.ensureOpen >>= p).wp (fun o db' d' => o = .err .notOpen ∧ db' = db ∧ d' = d) db d := by
  rw [Prog.wp_bind, Db.wp_ensureOpen, h]
  exact ⟨rfl, rfl, rfl⟩

theorem Call.closed {db : Db} (h : db.opened = false) (c : Call sh) (d : Device) :
    c.run.wp (fun o db' d' => o = .err .notOpen ∧ db' = db ∧ d' = d) db d := by
  cases c with
  | put key val => exact Db.closed_bind h _ d
  | putWithTtl key val expireAt => exact Db.closed_bind h _ d
  | delete key => exact Db.closed_bind h _ d
  | deleteRange start stop => exact Db.closed_bind h _ d
  | write batch => exact Db.closed_bind h _ d

namespace SysOk

variable {s : Sys} {c : Config}

/-- The system with a new handle. -/
theorem restarted {d : Device} {appended : List Record} (hlog : LogOk sh (cfg.resolveLayout sh) d appended)
    (hst : Stands sh (cfg.resolveLayout sh) d) : SysOk sh (cfg.resolveLayout sh) ⟨Db.new sh cfg, d, appended⟩ :=
  ⟨.new sh cfg, hlog, hst, by simp [Db.new]⟩

/-- The block of a call lands, whole or torn. -/
theorem put (h : SysOk sh (cfg.resolveLayout sh) s) (hopen : s.db.opened = true) {ops : List BatchOp}
    (hl : Landing sh s.db ops) {after : Bytes} (hlen : after.length = sh.BLOCK)
    (hrec : ∀ r ∈ (summary after).recs, r ∈ s.db.group ops ∨ r ∈ (summary (s.dev.blocks s.db.wal.nextBlock)).recs)
    {d' : Device}
    (hb : d'.blocks = (s.dev.put s.db.wal.nextBlock (blockOf sh.BLOCK (s.db.group ops)) after).blocks)
    (hw : d'.writes = (s.dev.put s.db.wal.nextBlock (blockOf sh.BLOCK (s.db.group ops)) after).writes) :
    LogOk sh (cfg.resolveLayout sh) d' (s.appended ++ s.db.group ops) ∧
      ∀ m, Manifest.Holds sh (cfg.resolveLayout sh).manifestLayout s.dev m →
        Manifest.Holds sh (cfg.resolveLayout sh).manifestLayout d' m := by
  have hok := h.opened hopen
  have hin := hok.inWal h.handle hl.room
  constructor
  · refine (h.log.put hl.wf (blockOf sh.BLOCK (s.db.group ops)) hlen ?_).keeps fun j _ => by rw [hb]
    intro r hr
    exact (hrec r hr).imp_right fun hr => ⟨hin, hr⟩
  · intro m hm
    exact holds_same (holds_put hm (fun hc => hok.regions.copies_wal _ hc hin) _ _) hb hw

theorem call (hb : (cfg.resolveLayout sh).Bounded) (h : SysOk sh (cfg.resolveLayout sh) s) (c : Call sh) {fates : List Fate}
    (ha : s.Allowed (.call c) fates) : SysOk sh (cfg.resolveLayout sh) (s.step cfg (.call c) fates) := by
  obtain ⟨hfates, huncovers⟩ := ha
  have hlog : LogOk sh (cfg.resolveLayout sh) (s.answering fates) s.appended := h.log.keeps fun _ _ => rfl
  have hstands : Stands sh (cfg.resolveLayout sh) (s.answering fates) := by
    obtain ⟨m, hm, hhead⟩ := h.stands
    exact ⟨m, holds_same hm rfl rfl, hhead⟩
  have hsame : ∀ w : WalWriter, s.db.opened = true → Idle sh s.db.wal w 0 →
      SysOk sh (cfg.resolveLayout sh) ⟨{ s.db with wal := w }, s.answering fates, s.appended ++ []⟩ := by
    intro w hopen hw
    rw [List.append_nil]
    have hok := h.opened hopen
    refine ⟨hw.handleOk h.handle rfl, hlog, hstands, fun _ => ?_⟩
    have hn := hw.nextBlock
    exact { hok with
      stage := hw.stage
      next_ge := by rw [hn]; exact hok.next_ge
      next_lt := by rw [hn]; exact hok.next_lt
      holds := holds_same hok.holds rfl rfl }
  rw [Sys.step]
  rcases hrun : c.run s.db (s.answering fates) with ⟨o, db', d'⟩
  dsimp only
  cases hopen : s.db.opened with
  | false =>
    obtain ⟨rfl, rfl, rfl⟩ := Prog.wp_run (Call.closed hopen c _) hrun
    refine ⟨h.handle, by simpa [Sys.ended, Sys.appendedBy] using hlog, hstands, fun ho => ?_⟩
    exact absurd (hopen.symm.trans ho) (by simp)
  | true =>
    have hok := h.opened hopen
    have hinc : Increasing (s.db.group c.ops) := (numbered_groupRecords _ _).increasing
    -- a block that landed whole
    have hwhole : Landing sh s.db c.ops → LogOk sh (cfg.resolveLayout sh)
        (s.db.landed (s.answering fates) (blockOf sh.BLOCK (s.db.group c.ops))) (s.appended ++ s.db.group c.ops) ∧
        ∀ m, Manifest.Holds sh (cfg.resolveLayout sh).manifestLayout s.dev m →
          Manifest.Holds sh (cfg.resolveLayout sh).manifestLayout
            (s.db.landed (s.answering fates) (blockOf sh.BLOCK (s.db.group c.ops))) m := by
      intro hl
      refine h.put hopen hl (length_blockOf hl.fits) ?_ rfl rfl
      intro r hr
      rw [summary_blockOf hl.wf hinc] at hr
      exact Or.inl hr
    have hcut : ∀ d', LogOk sh (cfg.resolveLayout sh) d' (s.appended ++ s.db.group c.ops) →
        (∀ m, Manifest.Holds sh (cfg.resolveLayout sh).manifestLayout s.dev m →
          Manifest.Holds sh (cfg.resolveLayout sh).manifestLayout d' m) →
        SysOk sh (cfg.resolveLayout sh) ⟨Db.new sh cfg, d', s.appended ++ s.db.group c.ops⟩ := by
      intro d' hlog' hm
      exact restarted hlog' ⟨_, hm _ hok.holds, fun _ => hok.head⟩
    have hfate : (s.answering fates).fate = .ok ∨ ∃ k, (s.answering fates).fate = .cut k := Sys.OnlyCuts.fate hfates
    have hfate' : (s.answering fates).advance.fate = .ok ∨ ∃ k, (s.answering fates).advance.fate = .cut k :=
      Sys.OnlyCuts.fate hfates.tail
    cases Prog.wp_run (Call.spec hopen hok.stage c) hrun with
    | nothing hnil =>
      have := hsame s.db.wal hopen ⟨hok.stage, rfl, rfl, rfl⟩
      simpa [Sys.ended, Sys.appendedBy, Db.group, hnil, groupRecords] using this
    | refused hw => exact hsame _ hopen hw
    | stopped hl hstop =>
      cases hstop with
      | failed hf hw => rcases hfate with h1 | ⟨k, h1⟩ <;> rw [h1] at hf <;> cases hf
      | dropped hf => rcases hfate with h1 | ⟨k, h1⟩ <;> rw [h1] at hf <;> cases hf
      | unflushed hok' hf => rcases hfate' with h1 | ⟨k, h1⟩ <;> rw [h1] at hf <;> cases hf
      | unflushedDropped hok' hf => rcases hfate' with h1 | ⟨k, h1⟩ <;> rw [h1] at hf <;> cases hf
      | unflushedCut hok' hf => exact hcut _ (hwhole hl).1 (hwhole hl).2
      | @cut k _ hf =>
        have hblock : (blockOf sh.BLOCK (s.db.group c.ops)).length = sh.BLOCK := length_blockOf hl.fits
        have hold := h.log.length _ (hok.inWal h.handle hl.room)
        have hlen : (Bytes.tear k (blockOf sh.BLOCK (s.db.group c.ops)) (s.dev.blocks s.db.wal.nextBlock)).length =
            sh.BLOCK := by rw [Bytes.length_tear (hblock.trans hold.symm), hold]
        have htorn : LogOk sh (cfg.resolveLayout sh) (s.db.torn (s.answering fates) (blockOf sh.BLOCK (s.db.group c.ops)) k)
            (s.appended ++ s.db.group c.ops) ∧ _ := h.put hopen hl hlen (huncovers k (by rw [← hf]; rfl)) rfl rfl
        exact hcut _ htorn.1 htorn.2
    | @done w t hl h1 h2 hw ht =>
      obtain ⟨hlog', hholds⟩ := hwhole hl
      obtain ⟨hintact, hperm⟩ := MemTable.iter_replayAll hok.intact ht
      refine ⟨hw.handleOk h.handle rfl, hlog', ⟨_, hholds _ hok.holds, fun _ => hok.head⟩, fun _ => ?_⟩
      have hn := hw.nextBlock
      have hroom := (hok.inWal h.handle hl.room).2
      refine { hok with
        stage := hw.stage
        intact := hintact
        holds := hholds _ hok.holds
        next_ge := ?_
        next_lt := ?_
        nextSeq := ?_
        known := ?_ }
      · have := hok.next_ge
        show (cfg.resolveLayout sh).walStart ≤ w.nextBlock
        omega
      · have := hb.walEnd_lt
        show w.nextBlock < 2 ^ 64
        omega
      · have := hl.seqs
        rw [U64_MAX] at this
        show s.db.nextSeq + c.ops.length < 2 ^ 64
        omega
      · intro e he
        rcases List.mem_append.mp (hperm.mem_iff.mp he) with he | he
        · obtain ⟨r, hr, rfl⟩ := List.mem_map.mp he
          exact ⟨r, List.mem_append_right _ hr, rfl⟩
        · obtain ⟨r, hr, rfl⟩ := hok.known e he
          exact ⟨r, List.mem_append_left _ hr, rfl⟩

/-! ### Commits of the manifest -/

/-- What a commit of the manifest leaves, whichever way it ends. -/
theorem commit (h : OpenOk sh c s.db s.dev s.appended) {e : ManifestEdit} (he : e.WF sh) (hst : s.db.manifest.StampsOne e)
    (hord : s.db.manifest.InOrder e) (hhead : ∀ b ∈ e.walHead, c.walStart ≤ b) {d₁ d' : Device} (hk : Keeps (fun j => ¬ c.InTable j) s.dev d₁)
    (hcuts : Sys.OnlyCuts d₁.fates) {o : Outcome Error Unit} {m : Manifest}
    (hc : Manifest.commitEdit sh c.manifestLayout e s.db.manifest d₁ = (o, m, d')) :
    (∀ j, c.InWal j → d'.blocks j = s.dev.blocks j) ∧ Stands sh c d' ∧
      (o ≠ .cut → Manifest.Holds sh c.manifestLayout d' m ∧ c.walStart ≤ m.walHead) ∧ o ≠ .dropped := by
  have hholds : Manifest.Holds sh c.manifestLayout d₁ s.db.manifest :=
    h.holds.keeps (hk.mono fun j hj => h.regions.copies_table j hj)
  have hwal : ∀ j, c.InWal j → d₁.blocks j = s.dev.blocks j := fun j hj => hk.blocks j (h.regions.wal_table j hj)
  have hview : c.walStart ≤ (s.db.manifest.view sh e).walHead := by
    show c.walStart ≤ e.walHead.getD s.db.manifest.walHead
    cases hw : e.walHead with
    | none => exact h.head
    | some b => exact hhead b hw
  rcases Prog.wp_run (hholds.commit_spec h.regions.copies he hst hord) hc with ⟨rfl, rfl, x, rfl⟩ | ⟨hkeep, hend⟩
  · exact ⟨hwal, ⟨_, hholds, fun _ => h.head⟩, fun _ => ⟨hholds, h.head⟩, by simp⟩
  · have hwal' : ∀ j, c.InWal j → d'.blocks j = s.dev.blocks j := fun j hj =>
      (hkeep.blocks j fun hin => h.regions.copies_wal j hin hj).trans (hwal j hj)
    cases o with
    | ok u =>
      obtain ⟨rfl, hm⟩ := hend
      exact ⟨hwal', ⟨_, hm, fun _ => hview⟩, fun _ => ⟨hm, hview⟩, by simp⟩
    | err x =>
      obtain ⟨k, hf⟩ := hend
      exact absurd hf (hcuts.not_fail k)
    | cut =>
      refine ⟨hwal', ?_, by simp, by simp⟩
      rcases hend with hm | hm
      · exact ⟨_, hm, fun _ => h.head⟩
      · exact ⟨_, hm, fun _ => hview⟩
    | dropped =>
      obtain ⟨k, hf⟩ := hend
      exact absurd hf (hcuts.not_drop k)

/-- Blocks of the table region do not matter. -/
theorem keeps (h : OpenOk sh c s.db s.dev s.appended) {d' : Device} (hk : Keeps (fun j => ¬ c.InTable j) s.dev d') :
    OpenOk sh c s.db d' s.appended ∧ ∀ j, c.InWal j → d'.blocks j = s.dev.blocks j :=
  ⟨{ h with holds := h.holds.keeps (hk.mono fun j hj => h.regions.copies_table j hj) },
    fun j hj => hk.blocks j (h.regions.wal_table j hj)⟩

/-- The system behind an action that appends nothing. -/
theorem ended {α : Type} {o : Outcome Error α} {db' : Db} {d' : Device} (h : SysOk sh (cfg.resolveLayout sh) s)
    (hwal : ∀ j, (cfg.resolveLayout sh).InWal j → d'.blocks j = s.dev.blocks j)
    (hst : Stands sh (cfg.resolveLayout sh) d')
    (hdb : o ≠ .cut → HandleOk sh (cfg.resolveLayout sh) db' ∧
      (db'.opened = true → OpenOk sh (cfg.resolveLayout sh) db' d' s.appended)) :
    SysOk sh (cfg.resolveLayout sh) (Sys.ended sh cfg s (o, db', d') []) := by
  have hlog : LogOk sh (cfg.resolveLayout sh) d' (s.appended ++ []) := by
    rw [List.append_nil]
    exact h.log.keeps hwal
  by_cases ho : o = .cut
  · subst ho
    exact restarted hlog hst
  · obtain ⟨h1, h2⟩ := hdb ho
    have hdb' : (Sys.ended sh cfg s (o, db', d') []).db = db' := by
      cases o with
      | cut => exact absurd rfl ho
      | ok a => rfl
      | err e => rfl
      | dropped => rfl
    refine ⟨hdb'.symm ▸ h1, hlog, hst, fun hopen => ?_⟩
    rw [hdb'] at hopen ⊢
    have := h2 hopen
    simpa [Sys.ended] using this

/-- The system behind an action that leaves the handle alone and the device up to blocks of the table region. -/
theorem ended_same {α : Type} (o : Outcome Error α) {d' : Device} (h : SysOk sh (cfg.resolveLayout sh) s)
    (hopen : s.db.opened = true) (hk : Keeps (fun j => ¬ (cfg.resolveLayout sh).InTable j) s.dev d') :
    SysOk sh (cfg.resolveLayout sh) (Sys.ended sh cfg s (o, s.db, d') []) := by
  obtain ⟨hok, hwal⟩ := keeps (h.opened hopen) hk
  exact h.ended hwal hok.stands fun _ => ⟨h.handle, fun _ => hok⟩

theorem ended_closed {α : Type} {p : Prog Db Error α} {fates : List Fate} (h : SysOk sh (cfg.resolveLayout sh) s)
    (hclosed : s.db.opened = false)
    (hp : p.wp (fun o db' d' => o = .err .notOpen ∧ db' = s.db ∧ d' = s.answering fates) s.db (s.answering fates)) :
    SysOk sh (cfg.resolveLayout sh) (Sys.ended sh cfg s (p s.db (s.answering fates)) []) := by
  rcases hrun : p s.db (s.answering fates) with ⟨o, db', d'⟩
  obtain ⟨rfl, rfl, rfl⟩ := Prog.wp_run hp hrun
  obtain ⟨m, hm, hhead⟩ := h.stands
  refine h.ended (fun _ _ => rfl) ⟨m, holds_same hm rfl rfl, hhead⟩ fun _ => ⟨h.handle, fun ho => ?_⟩
  exact absurd (hclosed.symm.trans ho) (by simp)

/-! ### Flushes -/

/-- The handle behind a commit of the manifest that the power did not cut. -/
theorem flushed {db : Db} {d d' : Device} {appended : List Record} (h : OpenOk sh c db d appended)
    (hh : HandleOk sh c db) (db' : Db) (hb : c.Bounded) (hcfg : db'.cfg = db.cfg) (hseq : db'.nextSeq = db.nextSeq)
    (hslots : db.slots.SameLayout db'.slots) (hwal : db'.wal = db.wal ∨ db'.wal = db.wal.resetTo c.walStart)
    (htable : db'.table = db.table ∨ db'.table = db.table.clear)
    (hm : Manifest.Holds sh c.manifestLayout d' db'.manifest ∧ c.walStart ≤ db'.manifest.walHead) :
    HandleOk sh c db' ∧ (db'.opened = true → OpenOk sh c db' d' appended) := by
  obtain ⟨h1, h2, h3⟩ := hslots
  have hin : db'.SlotsInside := by
    intro slot hslot
    rw [h3] at hslot
    rw [hcfg, SlotMap.slotBase, h1, h2]
    exact h.slots slot hslot
  have htab : db'.table.Intact ∧ ∀ e ∈ db'.table.iter, ∃ r ∈ appended, e = r.entry := by
    rcases htable with ht | ht
    · rw [ht]
      exact ⟨h.intact, h.known⟩
    · rw [ht]
      exact ⟨MemTable.intact_clear _, fun e he => by simp [MemTable.clear, MemTable.iter] at he⟩
  have hseq' : db'.nextSeq < 2 ^ 64 := hseq ▸ h.nextSeq
  rcases hwal with hw | hw
  · refine ⟨⟨hcfg.trans hh.cfg, hw ▸ hh.walStart, hw ▸ hh.walEnd, hw ▸ hh.stage⟩, ?_⟩
    intro _
    exact ⟨h.regions, hw ▸ h.stage, hw ▸ h.next_ge, hw ▸ h.next_lt, hseq', hin, hm.1, hm.2, htab.1, htab.2⟩
  · refine ⟨⟨hcfg.trans hh.cfg, by rw [hw]; exact hh.walStart, by rw [hw]; exact hh.walEnd, by rw [hw]; exact hh.stage⟩, ?_⟩
    intro _
    refine ⟨h.regions, ?_, by rw [hw]; exact le_rfl, by rw [hw]; exact hb.walStart_lt, hseq', hin, hm.1, hm.2, htab.1, htab.2⟩
    rw [hw]
    exact { h.stage with }

theorem flush (hb : (cfg.resolveLayout sh).Bounded) (h : SysOk sh (cfg.resolveLayout sh) s) {fates : List Fate}
    (hcuts : Sys.OnlyCuts fates) : SysOk sh (cfg.resolveLayout sh) (s.step cfg (Action.flush : Action sh) fates) := by
  rw [Sys.step]
  cases hopen : s.db.opened with
  | false => exact h.ended_closed hopen (Db.closed_bind hopen _ _)
  | true =>
    have hok := h.opened hopen
    have hsized := hok.sized hb h.handle.cfg h.log.wf
    have hcfg := h.handle.cfg
    have hadv : Keeps (fun j => ¬ (cfg.resolveLayout sh).InTable j) s.dev (s.answering fates).advance := .of_eq _ rfl rfl
    rcases hrun : Db.flush sh s.db (s.answering fates) with ⟨o, db', d'⟩
    cases Prog.wp_run (Db.flush_spec hopen hok.stage hok.slots) hrun with
    | early hk =>
      rw [hcfg] at hk
      exact h.ended_same _ hopen ⟨hk.blocks, hk.writes, hk.logged⟩
    | clean hf he hw => exact h.ended_same _ hopen hadv
    | @wrap _ m _ hf he hw hc =>
      rw [hcfg] at hc
      have hhead : ∀ b ∈ s.db.wrapEdit.walHead, (cfg.resolveLayout sh).walStart ≤ b := by
        intro b hbm
        obtain rfl := Option.some.inj hbm
        exact (congrArg Config.walStart hcfg).ge
      obtain ⟨h1, h2, h3, h4⟩ := commit hok (Db.wrapEdit_wf hsized) (by intro x hx; cases hx) (by intro x hx; cases hx) hhead hadv hcuts.tail hc
      refine h.ended h1 h2 fun ho => ?_
      have hm := h3 ho
      cases o with
      | cut => exact absurd rfl ho
      | dropped => exact absurd rfl h4
      | err x => exact flushed hok h.handle _ hb rfl rfl ⟨rfl, rfl, rfl⟩ (Or.inl rfl) (Or.inl rfl) hm
      | ok u =>
        refine flushed hok h.handle _ hb rfl rfl ⟨rfl, rfl, rfl⟩ (Or.inr ?_) (Or.inl rfl) hm
        rw [← hcfg]
        rfl
    | @table _ m d₁ _ plan rdelPlan slot tref e hf hp hwrite hid htref he hc =>
      rw [hcfg] at hc
      have hwf := Db.flushTref_wf hsized hp hok.slots hid htref
      have hhead : ∀ b ∈ e.walHead, (cfg.resolveLayout sh).walStart ≤ b := by
        intro b hbm
        rw [Db.flushEdit_ok he] at hbm
        obtain rfl := Option.some.inj hbm
        split
        · exact (congrArg Config.walStart hcfg).ge
        · exact hok.next_ge
      have hst : s.db.manifest.StampsOne e := by
        intro x hx
        rw [Db.flushEdit_ok he] at hx
        cases hx
      have hord : s.db.manifest.InOrder e := by
        intro x hx hlevel
        rw [Db.flushEdit_ok he] at hx
        obtain rfl := Option.some.inj hx
        exact absurd hlevel (by simp)
      have hk := hp.keeps hok.slots (Prog.wp_run (writeFlushTable_extent hp.rdels _) hwrite).2
      rw [hcfg] at hk
      have hcuts' : Sys.OnlyCuts d₁.fates :=
        hcuts.tail.suffix (Prog.wp_run ((consumes_writeFlushTable _ _ _ _ _).wp _ _) hwrite)
      obtain ⟨h1, h2, h3, h4⟩ := commit hok (Db.flushEdit_wf hsized hwf hid he) hst hord hhead (hadv.trans hk) hcuts' hc
      refine h.ended h1 h2 fun ho => ?_
      have hm := h3 ho
      cases o with
      | cut => exact absurd rfl ho
      | dropped => exact absurd rfl h4
      | err x => exact flushed hok h.handle _ hb rfl rfl ⟨rfl, rfl, rfl⟩ (Or.inl rfl) (Or.inl rfl) hm
      | ok u =>
        refine flushed hok h.handle _ hb rfl rfl (SlotMap.sameLayout_claim _ _) ?_ (Or.inr rfl) hm
        show (if s.db.wraps then s.db.wal.resetTo s.db.cfg.walStart else s.db.wal) = s.db.wal ∨
          (if s.db.wraps then s.db.wal.resetTo s.db.cfg.walStart else s.db.wal) = _
        rw [hcfg]
        split
        · exact Or.inr rfl
        · exact Or.inl rfl

/-! ### Opens -/

/-- What the records of all blocks from the head on have, those have that a walk finds. -/
theorem walk_forall {d : Device} {P : Record → Prop} {head stop : Nat} (floor : Nat)
    (h : ∀ i, head ≤ i → i < stop → ∀ r ∈ (summary (d.blocks i)).recs, P r) (hseq : ∀ r, P r → r.seq < 2 ^ 64) :
    (∀ r ∈ (walk (summaries d) floor (stop - head) head ⟨0, none⟩).1, P r) ∧
      (walk (summaries d) floor (stop - head) head ⟨0, none⟩).2.2.max < 2 ^ 64 ∧
      head ≤ (walk (summaries d) floor (stop - head) head ⟨0, none⟩).2.1 ∧
      (walk (summaries d) floor (stop - head) head ⟨0, none⟩).2.1 ≤ max head stop := by
  obtain ⟨hw, hle⟩ := walk_window (summaries d) floor (stop - head) head ⟨0, none⟩
  have hblock : ∀ i, head ≤ i → i < (walk (summaries d) floor (stop - head) head ⟨0, none⟩).2.1 →
      ∀ r ∈ (summaries d i).groups, P r := by
    intro i hi hlt r hr
    exact h i hi (by omega) r ((closed_isPrefix _).subset hr)
  refine ⟨hw.forall_of_live fun i hi hlt r hr => hblock i hi hlt r (List.mem_of_mem_filter hr), ?_, hw.le, by omega⟩
  have := hw.max_le (b := 2 ^ 64 - 1) (Nat.zero_le _) fun i hi hlt r hr => by
    have hwf := hseq r (hblock i hi hlt r hr)
    show r.seq ≤ 2 ^ 64 - 1
    omega
  omega

/-- The records that a walk over blocks of the log finds were appended. -/
theorem walk_appended {d : Device} {appended : List Record} (h : LogOk sh c d appended) {head : Nat}
    (hhead : c.walStart ≤ head) (floor : Nat) :
    (∀ r ∈ (walk (summaries d) floor (c.walEnd - head) head ⟨0, none⟩).1, r ∈ appended) ∧
      (walk (summaries d) floor (c.walEnd - head) head ⟨0, none⟩).2.2.max < 2 ^ 64 ∧
      head ≤ (walk (summaries d) floor (c.walEnd - head) head ⟨0, none⟩).2.1 ∧
      (walk (summaries d) floor (c.walEnd - head) head ⟨0, none⟩).2.1 ≤ max head c.walEnd := by
  exact walk_forall floor (fun i hi hlt r hr => h.records i ⟨by omega, hlt⟩ r hr) fun r hr => (h.wf r hr).seq_lt

/-- The manifest that `open` finds stands on the device, and its head is in the log region. -/
theorem recovered {d : Device} (hb : c.Bounded) (h : Stands sh c d) (hf : Manifest.NoForgedCopy sh c.manifestLayout d)
    {r : Manifest × Bool} (hr : (Manifest.recoverFrom sh c.manifestLayout).eval d.blocks = .ok r) :
    Manifest.Holds sh c.manifestLayout d (Db.firstHead c r) ∧ c.walStart ≤ (Db.firstHead c r).walHead := by
  obtain ⟨m, hm, hhead⟩ := h
  rw [hm.recover hf] at hr
  obtain rfl := Except.ok.inj hr
  unfold Manifest.recovered
  split
  · rename_i h0
    refine ⟨⟨Manifest.wf_new hb.walStart_lt, Nat.zero_le _, fun _ => hm.fresh h0, fun h => absurd rfl h, ?_⟩, le_rfl⟩
    intro k hk i hi x hx
    have := hm.history k hk i hi x hx
    rw [h0] at this
    exact this
  · rename_i h0
    exact ⟨hm, hhead h0⟩

theorem open_ (hb : (cfg.resolveLayout sh).Bounded) (h : SysOk sh (cfg.resolveLayout sh) s) {fates : List Fate}
    (hf : Manifest.NoForgedCopy sh s.db.cfg.manifestLayout s.dev) :
    SysOk sh (cfg.resolveLayout sh) (s.step cfg (Action.open_ : Action sh) fates) := by
  rw [Sys.step]
  have hcfg := h.handle.cfg
  have hend : s.db.wal.walEnd = s.db.cfg.walEnd := by rw [h.handle.walEnd, hcfg]
  rcases hrun : Db.open_ sh s.db (s.answering fates) with ⟨o, db', d'⟩
  obtain ⟨⟨hblocks, hwrites, -⟩, h1, h2, h3, h4, h5⟩ := Prog.wp_run (Db.open_spec hend (s.answering fates)) hrun
  have hb' : d'.blocks = s.dev.blocks := hblocks
  have hw' : d'.writes = s.dev.writes := hwrites
  have hstands : Stands sh (cfg.resolveLayout sh) d' := by
    obtain ⟨m, hm, hhead⟩ := h.stands
    exact ⟨m, holds_same hm hb' hw', hhead⟩
  rw [hcfg] at hf h4
  have hrec : ∀ r, (Manifest.recoverFrom sh s.db.cfg.manifestLayout).eval (s.answering fates).blocks = .ok r →
      db'.manifest = Db.firstHead s.db.cfg r →
      Manifest.Holds sh (cfg.resolveLayout sh).manifestLayout s.dev db'.manifest ∧
        (cfg.resolveLayout sh).walStart ≤ db'.manifest.walHead := by
    intro r hr hm
    rw [hcfg] at hr hm
    rw [hm]
    exact recovered hb h.stands hf hr
  have hstage : (cfg.resolveLayout sh).walStart ≤ db'.manifest.walHead → db'.wal.stage.length = sh.BLOCK := by
    intro hhead
    rcases h4 with heq | ⟨i, hi, hlt, heq⟩
    · rw [heq, h.handle.stage]
    · rw [heq]
      exact h.log.length i ⟨by omega, hlt⟩
  have hhandle : db'.wal.stage.length = sh.BLOCK → HandleOk sh (cfg.resolveLayout sh) db' := fun hlen =>
    ⟨h1.trans hcfg, h2.trans h.handle.walStart, h3.trans h.handle.walEnd, hlen⟩
  refine h.ended (fun j _ => congrFun hb' j) hstands fun ho => ?_
  have hclosed : db'.opened = false ∧ (db'.wal.stage = s.db.wal.stage ∨
      ∃ r, (Manifest.recoverFrom sh s.db.cfg.manifestLayout).eval (s.answering fates).blocks = .ok r ∧
        db'.manifest = Db.firstHead s.db.cfg r) → HandleOk sh (cfg.resolveLayout sh) db' ∧
      (db'.opened = true → OpenOk sh (cfg.resolveLayout sh) db' d' s.appended) := by
    rintro ⟨hc, hst⟩
    refine ⟨hhandle ?_, fun hopen => absurd (hc.symm.trans hopen) (by simp)⟩
    rcases hst with hst | ⟨r, hr, hm⟩
    · rw [hst, h.handle.stage]
    · exact hstage (hrec r hr hm).2
  cases o with
  | cut => exact absurd rfl ho
  | err e => exact hclosed h5
  | dropped => exact hclosed h5
  | ok x =>
    obtain ⟨r, hr, hm⟩ := h5.recovered
    obtain ⟨hholds, hhead⟩ := hrec r hr hm
    have hlen := hstage hhead
    refine ⟨hhandle hlen, fun _ => ?_⟩
    obtain ⟨stage, maxSeq, hwal, -, -, hmax, hnext⟩ := h5.wal
    have htable := h5.table
    rw [hcfg] at hwal htable hmax
    obtain ⟨hmem, hlt, hge, hle⟩ := walk_appended h.log hhead db'.manifest.flushedSeq
    obtain ⟨hintact, hperm⟩ := MemTable.iter_replayAll MemTable.intact_new htable
    have hnb : db'.wal.nextBlock = (Db.logWalk (cfg.resolveLayout sh) s.dev db'.manifest).2.1 := by rw [hwal]; rfl
    have hwf := hholds.wf
    refine ⟨Config.regions_of_check (hcfg ▸ h5.regions), ?_, ?_, ?_, ?_, Db.slotsInside_of_opened h5 h1,
      holds_same hholds hb' hw', hhead, hintact, ?_⟩
    · rw [hwal] at hlen ⊢
      exact stageOk_recovered hlen _ _ _ _
    · rw [hnb]
      exact hhead.trans hge
    · rw [hnb]
      exact lt_of_le_of_lt hle (max_lt hwf.walHead_lt hb.walEnd_lt)
    · rw [hnext]
      exact max_lt (max_lt (lt_of_le_of_lt hmax (max_lt hlt hwf.flushedSeq_lt)) hwf.seqHigh_lt) hwf.maxSeq_lt
    · intro e he
      rcases List.mem_append.mp (hperm.mem_iff.mp he) with he | he
      · obtain ⟨r, hr, rfl⟩ := List.mem_map.mp he
        exact ⟨r, hmem r hr, rfl⟩
      · simp [MemTable.new, MemTable.iter] at he

/-! ### Everything else -/

/-- Slots in use, snapshots and fields of the job do not matter. -/
theorem ended_fields {α : Type} (o : Outcome Error α) {db' : Db} {fates : List Fate}
    (h : SysOk sh (cfg.resolveLayout sh) s) (hcfg : db'.cfg = s.db.cfg) (hwal : db'.wal = s.db.wal)
    (hm : db'.manifest = s.db.manifest) (ht : db'.table = s.db.table) (hn : db'.nextSeq = s.db.nextSeq)
    (ho : db'.opened = s.db.opened) (hs : s.db.slots.SameLayout db'.slots) :
    SysOk sh (cfg.resolveLayout sh) (Sys.ended sh cfg s (o, db', s.answering fates) []) := by
  obtain ⟨m, hm', hhead⟩ := h.stands
  refine h.ended (fun _ _ => rfl) ⟨m, holds_same hm' rfl rfl, hhead⟩ fun _ => ?_
  refine ⟨⟨hcfg ▸ h.handle.cfg, hwal ▸ h.handle.walStart, hwal ▸ h.handle.walEnd, hwal ▸ h.handle.stage⟩, fun hopen => ?_⟩
  have hok := h.opened (ho ▸ hopen)
  have hin : db'.SlotsInside := by
    intro slot hslot
    rw [hs.2.2] at hslot
    rw [hcfg, SlotMap.slotBase, hs.1, hs.2.1]
    exact hok.slots slot hslot
  exact ⟨hok.regions, hwal ▸ hok.stage, hwal ▸ hok.next_ge, hwal ▸ hok.next_lt, hn ▸ hok.nextSeq, hin,
    hm ▸ holds_same hok.holds rfl rfl, hm ▸ hok.head, ht ▸ hok.intact, ht ▸ hok.known⟩

/-- An action that leaves the handle alone and keeps to the table region. -/
theorem ended_keeps {α : Type} {p : Prog Db Error α} {fates : List Fate} (h : SysOk sh (cfg.resolveLayout sh) s)
    (hopen : s.db.opened = true)
    (hp : p.wp (fun _ db' d' => db' = s.db ∧ Keeps (fun j => ¬ (cfg.resolveLayout sh).InTable j) s.dev d') s.db
      (s.answering fates)) :
    SysOk sh (cfg.resolveLayout sh) (Sys.ended sh cfg s (p s.db (s.answering fates)) []) := by
  rcases hrun : p s.db (s.answering fates) with ⟨o, db', d'⟩
  obtain ⟨rfl, hk⟩ := Prog.wp_run hp hrun
  exact h.ended_same o hopen hk

theorem table (h : SysOk sh (cfg.resolveLayout sh) s) (a : TableAction) {fates : List Fate} (hcuts : Sys.OnlyCuts fates)
    (ha : a.Legal sh s.db) : SysOk sh (cfg.resolveLayout sh) (s.step cfg (.table a : Action sh) fates) := by
  rw [Sys.step]
  have hkeep : Keeps (fun j => ¬ (cfg.resolveLayout sh).InTable j) s.dev (s.answering fates) := .of_eq _ rfl rfl
  have hclosed : ∀ {α : Type} (p : Unit → Prog Db Error α), s.db.opened = false → SysOk sh (cfg.resolveLayout sh)
      (Sys.ended sh cfg s ((Db.ensureOpen >>= p) s.db (s.answering fates)) []) := fun p hc =>
    h.ended_closed hc (Db.closed_bind hc _ _)
  cases hopen : s.db.opened with
  | false =>
    cases a with
    | read id => exact hclosed _ hopen
    | write id data => exact hclosed _ hopen
    | barrier => exact hclosed _ hopen
    | commit e => exact hclosed _ hopen
    | slots used reserved hint => exact h.ended_fields _ rfl rfl rfl rfl rfl rfl ⟨rfl, rfl, rfl⟩
    | job gen active inputs => exact h.ended_fields _ rfl rfl rfl rfl rfl rfl ⟨rfl, rfl, rfl⟩
    | manual level mark start skip => exact h.ended_fields _ rfl rfl rfl rfl rfl rfl ⟨rfl, rfl, rfl⟩
  | true =>
    have hok := h.opened hopen
    cases a with
    | read id =>
      refine h.ended_keeps hopen ?_
      rw [TableAction.run, Prog.wp_bind, Db.wp_ensureOpen, if_pos hopen, Prog.andThen_ok, Prog.wp_bind, Prog.wp_readBlock]
      cases (s.answering fates).fate with
      | ok => exact ⟨rfl, hkeep.advance⟩
      | fail k => exact ⟨rfl, hkeep.advance⟩
      | cut k => exact ⟨rfl, hkeep.advance⟩
      | drop k => exact ⟨rfl, hkeep.advance⟩
    | write id data =>
      have hid : ¬ ¬ (cfg.resolveLayout sh).InTable id := by
        rw [← h.handle.cfg]
        exact not_not.mpr ha
      refine h.ended_keeps hopen ?_
      rw [TableAction.run, Prog.wp_bind, Db.wp_ensureOpen, if_pos hopen, Prog.andThen_ok, Prog.wp_writeBlock]
      cases (s.answering fates).fate with
      | ok => exact ⟨rfl, (hkeep.put hid _ _).advance⟩
      | fail k => exact ⟨rfl, (hkeep.put hid _ _).advance⟩
      | cut k => exact ⟨rfl, (hkeep.put hid _ _).advance⟩
      | drop k => exact ⟨rfl, (hkeep.put hid _ _).advance⟩
    | barrier =>
      refine h.ended_keeps hopen ?_
      rw [TableAction.run, Prog.wp_bind, Db.wp_ensureOpen, if_pos hopen, Prog.andThen_ok, Prog.wp_flush]
      cases (s.answering fates).fate with
      | ok => exact ⟨rfl, hkeep.advance⟩
      | fail k => exact ⟨rfl, hkeep.advance⟩
      | cut k => exact ⟨rfl, hkeep.advance⟩
      | drop k => exact ⟨rfl, hkeep.advance⟩
    | commit e =>
      obtain ⟨hwf, hnone, hst, hord⟩ := ha
      have hend : ((TableAction.commit e).run sh).wp (fun o db' d' => ∃ m,
          Manifest.commitEdit sh s.db.cfg.manifestLayout e s.db.manifest (s.answering fates) = (o, m, d') ∧
            db' = { s.db with manifest := m }) s.db (s.answering fates) := by
        rw [TableAction.run, Prog.wp_bind, Db.wp_ensureOpen, if_pos hopen, Prog.andThen_ok, Prog.wp_bind, Prog.wp_get,
          Prog.andThen_ok]
        exact Db.wp_onManifest fun o m d' hc => ⟨m, hc, rfl⟩
      rcases hrun : (TableAction.commit e).run sh s.db (s.answering fates) with ⟨o, db', d'⟩
      obtain ⟨m, hc, rfl⟩ := Prog.wp_run hend hrun
      rw [h.handle.cfg] at hc
      obtain ⟨h1, h2, h3, h4⟩ := SysOk.commit hok hwf hst hord (by simp [hnone]) hkeep hcuts hc
      refine h.ended h1 h2 fun ho => ⟨⟨h.handle.cfg, h.handle.walStart, h.handle.walEnd, h.handle.stage⟩, fun _ => ?_⟩
      exact { hok with holds := (h3 ho).1, head := (h3 ho).2 }
    | slots used reserved hint => exact h.ended_fields _ rfl rfl rfl rfl rfl rfl ⟨rfl, rfl, rfl⟩
    | job gen active inputs => exact h.ended_fields _ rfl rfl rfl rfl rfl rfl ⟨rfl, rfl, rfl⟩
    | manual level mark start skip => exact h.ended_fields _ rfl rfl rfl rfl rfl rfl ⟨rfl, rfl, rfl⟩

theorem snapshot (h : SysOk sh (cfg.resolveLayout sh) s) (fates : List Fate) :
    SysOk sh (cfg.resolveLayout sh) (s.step cfg (Action.snapshot : Action sh) fates) := by
  rw [Sys.step]
  have hend : Db.snapshot.wp (fun _ db' d' => d' = s.answering fates ∧
      ∃ snaps, db' = { s.db with snapshots := snaps }) s.db (s.answering fates) := by
    rw [Db.snapshot, Prog.wp_bind, Prog.wp_get, Prog.andThen_ok]
    split
    · exact ⟨rfl, _, rfl⟩
    split
    · exact ⟨rfl, _, rfl⟩
    · exact ⟨rfl, _, rfl⟩
  rcases hrun : Db.snapshot s.db (s.answering fates) with ⟨o, db', d'⟩
  obtain ⟨rfl, snaps, rfl⟩ := Prog.wp_run hend hrun
  exact h.ended_fields _ rfl rfl rfl rfl rfl rfl ⟨rfl, rfl, rfl⟩

theorem releaseSnapshot (h : SysOk sh (cfg.resolveLayout sh) s) (snap : Nat) (fates : List Fate) :
    SysOk sh (cfg.resolveLayout sh) (s.step cfg (Action.releaseSnapshot snap : Action sh) fates) := by
  rw [Sys.step]
  have hend : (Db.releaseSnapshot snap).wp (fun _ db' d' => d' = s.answering fates ∧
      ∃ snaps, db' = { s.db with snapshots := snaps }) s.db (s.answering fates) := by
    rw [Db.releaseSnapshot, Prog.wp_modify]
    split
    · exact ⟨rfl, _, rfl⟩
    · exact ⟨rfl, _, rfl⟩
  rcases hrun : Db.releaseSnapshot snap s.db (s.answering fates) with ⟨o, db', d'⟩
  obtain ⟨rfl, snaps, rfl⟩ := Prog.wp_run hend hrun
  exact h.ended_fields _ rfl rfl rfl rfl rfl rfl ⟨rfl, rfl, rfl⟩

/-- Every action keeps the invariant. -/
theorem step (hb : (cfg.resolveLayout sh).Bounded) (h : SysOk sh (cfg.resolveLayout sh) s) {a : Action sh}
    {fates : List Fate} (ha : s.Allowed a fates) : SysOk sh (cfg.resolveLayout sh) (s.step cfg a fates) := by
  cases a with
  | call c => exact h.call hb c ha
  | flush => exact h.flush hb ha.1
  | open_ => exact h.open_ hb ha.2
  | snapshot => exact h.snapshot fates
  | releaseSnapshot snap => exact h.releaseSnapshot snap fates
  | table a => exact h.table a ha.1 ha.2
  | restart => exact restarted h.log h.stands

end SysOk

/-! ### Whole runs -/

namespace Sys

variable {d : Device} {s : Sys}

theorem Unwritten.ok (h : Unwritten sh (cfg.resolveLayout sh) d) :
    SysOk sh (cfg.resolveLayout sh) (init sh cfg d) := by
  refine SysOk.restarted ⟨by simp, h.length, fun j hj r hr => ?_⟩ ⟨Manifest.new sh, ?_, fun h => absurd rfl h⟩
  · rw [h.empty j hj] at hr
    cases hr
  · refine ⟨Manifest.wf_new (b := 0) (by omega), Nat.zero_le _, fun _ => h.blank, fun h => absurd rfl h, ?_⟩
    rintro k hk i hi x ⟨w, hw, -⟩
    rw [h.writes] at hw
    cases hw

theorem Reach.ok (hb : (cfg.resolveLayout sh).Bounded) (hd : Unwritten sh (cfg.resolveLayout sh) d)
    (h : Reach sh cfg d s) : SysOk sh (cfg.resolveLayout sh) s := by
  induction h with
  | start => exact hd.ok
  | step _ ha ih => exact ih.step hb ha

/-- A sequence of actions, each with what the device answers. -/
def run (cfg : Config) (s : Sys) (as : List (Action sh × List Fate)) : Sys := as.foldl (fun s a => s.step cfg a.1 a.2) s

def AllowedRun (cfg : Config) (s : Sys) : List (Action sh × List Fate) → Prop
  | [] => True
  | a :: as => s.Allowed a.1 a.2 ∧ AllowedRun cfg (s.step cfg a.1 a.2) as

theorem Reach.run (h : Reach sh cfg d s) (as : List (Action sh × List Fate)) (ha : AllowedRun cfg s as) :
    Reach sh cfg d (s.run cfg as) := by
  induction as generalizing s with
  | nil => exact h
  | cons a as ih => exact ih (h.step ha.1) ha.2

end Sys

/-- The small shape with values that hold a record. -/
def Shape.roomy : Shape := { Shape.small with
  VAL_MAX := 64
  ARENA := 128
  assertArenaFits := by decide
  assertVal := by decide
  assertArena := by decide
  assertRec := by decide
  assertManifest := by decide }

namespace Sys

def zeroed : Device := ⟨fun _ => Bytes.zeros 512, [], []⟩

theorem bounded_wholeDevice : (Config.resolveLayout Shape.roomy (.wholeDevice 60)).Bounded :=
  ⟨by decide, by decide, by decide, by decide⟩

end Sys

end Horton
