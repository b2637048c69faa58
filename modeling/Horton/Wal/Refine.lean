import Horton.Wal.Log

/-!
# The WAL refines a log of groups

`LogInv` relates a WAL region and its writer to the abstract log: up to the append position the region keeps the
acknowledged groups and the pending ones that were written, and the staging buffer holds the rest.  Every event keeps
it (`LogInv.step`), so every run of the region is a run of the abstract log.
-/

namespace Horton

open BlockDev GroupLog

/-- Nothing but power cuts goes wrong. -/
def CutsOnly (d : Device) : Prop := ∀ f ∈ d.fates, f = .ok ∨ ∃ k, f = .cut k

/-- The record assumption on all blocks of a region. -/
def NoForgeIn (d : Device) (lo hi : Nat) : Prop := ∀ j, lo ≤ j → j < hi → NoForge d j

instance (d : Device) (lo hi : Nat) : Decidable (NoForgeIn d lo hi) :=
  inferInstanceAs (Decidable (∀ j, lo ≤ j → j < hi → NoForge d j))

structure StagedOk (sh : Shape) (w : WalWriter) (base : Nat) (staged : List (List Record)) : Prop where
  stage : StageOk sh.BLOCK w staged.flatten
  groups : ∀ g ∈ staged, IsGroup g
  numbered : Numbered base staged.flatten
  wf : ∀ r ∈ staged.flatten, r.WF

structure UpInv (sh : Shape) (lo hi : Nat) (s : LogSys) (a : AbsLog) : Prop where
  up : s.up = true
  stagedOk : StagedOk sh s.wal s.base s.staged
  region : ∃ landed, a.pending = landed ++ s.staged ∧
    PlainRegion sh.BLOCK s.dev lo hi s.head s.wal.nextBlock s.floor s.base (a.acked ++ landed).flatten

structure DownInv (sh : Shape) (lo hi : Nat) (s : LogSys) (a : AbsLog) : Prop where
  up : s.up = false
  region : ∃ next top q, q <+: a.pending ∧ PlainRegion sh.BLOCK s.dev lo hi s.head next s.floor top (a.acked ++ q).flatten

structure LogInv (sh : Shape) (lo hi : Nat) (s : LogSys) (a : AbsLog) : Prop where
  walStart : s.wal.walStart = lo
  walEnd : s.wal.walEnd = hi
  lo_le : lo ≤ hi
  cuts : CutsOnly s.dev
  inv : UpInv sh lo hi s a ∨ DownInv sh lo hi s a

variable {sh : Shape} {lo hi : Nat} {s : LogSys} {a : AbsLog}

theorem StagedOk.fresh {w : WalWriter} {base : Nat} {staged : List (List Record)} (h : StagedOk sh w base staged) :
    Fresh base staged.flatten :=
  ⟨h.wf, h.numbered.increasing, fun r hr => (h.numbered.bounds r hr).1⟩

theorem CutsOnly.advance {d : Device} (h : CutsOnly d) : CutsOnly d.advance :=
  fun f hf => h f (Device.mem_advance_fates hf)

theorem CutsOnly.fate {d : Device} (h : CutsOnly d) : d.fate = .ok ∨ ∃ k, d.fate = .cut k := by
  rcases d.fate_mem_or_ok with ho | hm
  · exact Or.inl ho
  · exact h _ hm

theorem CutsOnly.suffix {d d' : Device} (h : CutsOnly d) (hs : d'.fates <:+ d.fates) : CutsOnly d' :=
  fun f hf => h f (hs.subset hf)

/-! ### Writing the staged block -/

/-- The staged block written whole: the pending groups are all in the log. -/
theorem UpInv.wrote (h : UpInv sh lo hi s a) (hne : s.staged.flatten ≠ []) (hlt : s.wal.nextBlock < hi) :
    PlainRegion sh.BLOCK
      (s.dev.put s.wal.nextBlock (blockOf sh.BLOCK s.staged.flatten) (blockOf sh.BLOCK s.staged.flatten)).advance lo hi
      s.head (s.wal.nextBlock + 1) s.floor s.nextSeq (a.acked ++ a.pending).flatten := by
  obtain ⟨landed, hp, hr⟩ := h.region
  have hst := h.stagedOk
  have hlo := le_trans hr.start_le hr.head_le
  have hlen : (blockOf sh.BLOCK s.staged.flatten).length = sh.BLOCK := length_blockOf hst.stage.fits
  have ht := ((torn_refl s.dev s.wal.nextBlock (blockOf sh.BLOCK s.staged.flatten)).put_whole
    (by rw [hlen, hr.length_block _ hlo hlt])).advance
  rw [hp, ← List.append_assoc, List.flatten_append]
  exact hr.write_whole ht hst.fresh hst.stage.fits (by omega) (closed_flatten hst.groups) hne hlt (Nat.le_add_right _ _)
    (Nat.le_add_right _ _) fun r hr' => (hst.numbered.bounds r hr').2

/-- The staged block torn by a power cut: a prefix of the pending groups is in the log. -/
theorem UpInv.torn (h : UpInv sh lo hi s a) (hlt : s.wal.nextBlock < hi) {k : Nat} (hlo : lo ≤ s.wal.nextBlock)
    (hf : NoForgeIn s.dev lo hi)
    (hf' : NoForgeIn (s.dev.put s.wal.nextBlock (blockOf sh.BLOCK s.staged.flatten)
      (Bytes.tear k (blockOf sh.BLOCK s.staged.flatten) (s.dev.blocks s.wal.nextBlock))).advance lo hi) :
    DownInv sh lo hi (s.down (s.dev.put s.wal.nextBlock (blockOf sh.BLOCK s.staged.flatten)
      (Bytes.tear k (blockOf sh.BLOCK s.staged.flatten) (s.dev.blocks s.wal.nextBlock))).advance) a := by
  obtain ⟨landed, hp, hr⟩ := h.region
  have hst := h.stagedOk
  have ht := ((torn_refl s.dev s.wal.nextBlock (blockOf sh.BLOCK s.staged.flatten)).put
    (by rw [length_blockOf hst.stage.fits, hr.length_block _ hlo hlt]) k).advance
  obtain ⟨n, next', hr'⟩ := hr.write_torn ht hst.fresh hst.stage.fits hlt (Nat.le_add_right _ _) (Nat.le_add_right _ _)
    (fun r hr' => (hst.numbered.bounds r hr').2) (hf _ hlo hlt) (hf' _ hlo hlt)
  obtain ⟨m, hm⟩ := closed_take_flatten hst.groups n
  refine ⟨rfl, next', s.nextSeq, landed ++ s.staged.take m, ?_, ?_⟩
  · rw [hp]; exact (List.prefix_append_right_inj _).mpr (List.take_prefix _ _)
  · rw [hm, ← List.flatten_append, List.append_assoc] at hr'
    exact hr'

/-- Between two operations a power cut loses what is staged. -/
theorem UpInv.down (h : UpInv sh lo hi s a) : DownInv sh lo hi (s.down s.dev) a := by
  obtain ⟨landed, hp, hr⟩ := h.region
  exact ⟨rfl, _, _, landed, by rw [hp]; exact List.prefix_append _ _, hr⟩

/-! ### Appending -/

/-- The writer works on the same region. -/
def SameRegion (w w' : WalWriter) : Prop := w'.walStart = w.walStart ∧ w'.walEnd = w.walEnd

/-- How a program that stages group `g` ends. -/
def StagesPost (sh : Shape) (s : LogSys) (g : List Record) : Outcome Error Unit → WalWriter → Device → Prop :=
  fun o w d => match o with
    | .ok _ => SameRegion s.wal w ∧ (∀ r ∈ g, r.WF) ∧
        ((d = s.dev ∧ w.nextBlock = s.wal.nextBlock ∧ StageOk sh.BLOCK w (s.staged.flatten ++ g)) ∨
          (s.staged.flatten ≠ [] ∧ s.wal.nextBlock < s.wal.walEnd ∧ w.nextBlock = s.wal.nextBlock + 1 ∧
            StageOk sh.BLOCK w g ∧ d = (s.dev.put s.wal.nextBlock (blockOf sh.BLOCK s.staged.flatten)
              (blockOf sh.BLOCK s.staged.flatten)).advance))
    | .err _ => SameRegion s.wal w ∧ d = s.dev ∧ w.nextBlock = s.wal.nextBlock ∧
        ∃ part, StageOk sh.BLOCK w (s.staged.flatten ++ part)
    | .cut => s.wal.nextBlock < s.wal.walEnd ∧ ∃ k, d = (s.dev.put s.wal.nextBlock (blockOf sh.BLOCK s.staged.flatten)
        (Bytes.tear k (blockOf sh.BLOCK s.staged.flatten) (s.dev.blocks s.wal.nextBlock))).advance
    | .dropped => False

theorem UpInv.lo_le_next (h : UpInv sh lo hi s a) : lo ≤ s.wal.nextBlock := by
  obtain ⟨landed, -, hr⟩ := h.region
  exact le_trans hr.start_le hr.head_le

theorem LogInv.runAppend (h : LogInv sh lo hi s a) (hup : UpInv sh lo hi s a) {g : List Record} (hg : IsGroup g)
    (hn : Numbered s.nextSeq g) {p : Prog WalWriter Error Unit} (hp : p.wp (StagesPost sh s g) s.wal s.dev)
    (hf : NoForgeIn s.dev lo hi) (hf' : NoForgeIn (s.runAppend g p).2.dev lo hi) :
    ∃ a', AbsLog.Step sh a (s.runAppend g p).1 a' ∧ LogInv sh lo hi (s.runAppend g p).2 a' := by
  obtain ⟨landed, hpend, hr⟩ := hup.region
  have hst := hup.stagedOk
  rw [LogSys.runAppend] at hf' ⊢
  rcases hrun : p s.wal s.dev with ⟨o, w, d⟩
  replace hp : StagesPost sh s g o w d := by rw [Prog.wp, hrun] at hp; exact hp
  rw [hrun] at hf'
  cases o with
  | dropped => exact hp.elim
  | err e =>
    obtain ⟨⟨hws, hwe⟩, rfl, hnext, part, hpart⟩ := hp
    have hroll : s.rollback w = w.truncateStage (lens s.staged.flatten) := by
      rw [LogSys.rollback, if_pos hnext, hst.stage.stageLen_eq]
    simp only [hroll]
    refine ⟨a, .rejected a, hws.trans h.walStart, hwe.trans h.walEnd, h.lo_le, h.cuts, Or.inl ⟨hup.up, ?_, landed, hpend, ?_⟩⟩
    · exact ⟨hpart.truncate, hst.groups, hst.numbered, hst.wf⟩
    · rw [← hnext] at hr; exact hr
  | cut =>
    obtain ⟨hlt, k, rfl⟩ := hp
    refine ⟨a, .crashed a, h.walStart, h.walEnd, h.lo_le, h.cuts.advance, Or.inr ?_⟩
    exact hup.torn (by rw [← h.walEnd]; exact hlt) hup.lo_le_next hf hf'
  | ok x =>
    obtain ⟨⟨hws, hwe⟩, hwf, hp⟩ := hp
    have hws' := hws.trans h.walStart
    have hwe' := hwe.trans h.walEnd
    simp only
    refine ⟨⟨a.acked, a.pending ++ [g]⟩, .appended .., ?_⟩
    rcases hp with ⟨rfl, hnext, hstage⟩ | ⟨hne, hlt, hnext, hstage, rfl⟩
    · rw [LogSys.afterAppend, if_pos hnext]
      refine ⟨hws', hwe', h.lo_le, h.cuts, Or.inl ⟨hup.up, ⟨?_, ?_, ?_, ?_⟩, landed, ?_, ?_⟩⟩
      · simpa using hstage
      · intro g' hg'
        rcases List.mem_append.mp hg' with hg' | hg'
        · exact hst.groups g' hg'
        · rw [List.mem_singleton.mp hg']; exact hg
      · simp only [List.flatten_append, List.flatten_cons, List.flatten_nil, List.append_nil]
        exact numbered_append.mpr ⟨hst.numbered, hn⟩
      · intro r hr'
        simp only [List.flatten_append, List.flatten_cons, List.flatten_nil, List.append_nil, List.mem_append] at hr'
        exact hr'.elim (hst.wf r) (hwf r)
      · simp [hpend]
      · rw [← hnext] at hr; exact hr
    · have hw := hup.wrote hne (by rw [← h.walEnd]; exact hlt)
      rw [LogSys.afterAppend, if_neg (show ¬ w.nextBlock = s.wal.nextBlock by omega)]
      refine ⟨hws', hwe', h.lo_le, h.cuts.advance, Or.inl ⟨hup.up, ⟨?_, ?_, ?_, ?_⟩, a.pending, rfl, ?_⟩⟩
      · simpa using hstage
      · intro g' hg'; rw [List.mem_singleton.mp hg']; exact hg
      · simpa using hn
      · intro r hr'; exact hwf r (by simpa using hr')
      · rw [← hnext] at hw; exact hw

theorem LogInv.step_append (h : LogInv sh lo hi s a) (op : BatchOp) (hf : NoForgeIn s.dev lo hi)
    (hf' : NoForgeIn (s.step sh (.append op)).2.dev lo hi) :
    ∃ a', AbsLog.Step sh a (s.step sh (.append op)).1 a' ∧ LogInv sh lo hi (s.step sh (.append op)).2 a' := by
  rw [LogSys.step] at hf' ⊢
  split at hf'
  · rename_i hc
    rw [if_pos hc]
    exact ⟨a, .rejected a, h⟩
  · rename_i hc
    rw [if_neg hc]
    simp only [not_or, Bool.not_eq_false] at hc
    obtain ⟨hupt, hmax⟩ := hc
    rcases h.inv with hup | hdown
    swap
    · exact absurd hupt (by simp [hdown.up])
    refine h.runAppend hup ⟨[], _, rfl, by simp, rfl⟩ ⟨rfl, trivial⟩ ?_ hf hf'
    refine Prog.wp_mono (op.append_spec hup.stagedOk.stage _ false) ?_
    intro o w d hp
    cases o with
    | ok x =>
      obtain ⟨hk, hv, hb, hp⟩ := hp
      have hwf : ∀ r ∈ [op.record (s.nextSeq + 1) false], r.WF := by
        intro r hr
        rw [List.mem_singleton.mp hr]
        exact BatchOp.record_wf (by simp only [U64_MAX] at hmax; omega) hk hv
      rcases hp with ⟨hfit, rfl, rfl⟩ | ⟨hover, hlt, -, rfl, rfl⟩
      · exact ⟨⟨rfl, rfl⟩, hwf, Or.inl ⟨rfl, rfl, hup.stagedOk.stage.stageRecord hfit⟩⟩
      · refine ⟨⟨rfl, rfl⟩, hwf, Or.inr ⟨?_, hlt, rfl, ?_, rfl⟩⟩
        · intro hc; rw [hc, lens_nil] at hover; omega
        · exact hup.stagedOk.stage.wrote.stageRecord (by simpa using hb)
    | err e =>
      rcases hp with ⟨rfl, rfl⟩ | ⟨-, -, k, hk, -⟩
      · exact ⟨⟨rfl, rfl⟩, rfl, rfl, [], by simpa using hup.stagedOk.stage⟩
      · rcases h.cuts.fate with hfate | ⟨_, hfate⟩ <;> simp [hfate] at hk
    | cut =>
      obtain ⟨-, hlt, k, -, hd⟩ := hp
      exact ⟨hlt, k, hd⟩
    | dropped =>
      obtain ⟨-, -, k, hk, -⟩ := hp
      rcases h.cuts.fate with hfate | ⟨_, hfate⟩ <;> simp [hfate] at hk

theorem LogInv.step_write (h : LogInv sh lo hi s a) (ops : List BatchOp) (hf : NoForgeIn s.dev lo hi)
    (hf' : NoForgeIn (s.step sh (.write ops)).2.dev lo hi) :
    ∃ a', AbsLog.Step sh a (s.step sh (.write ops)).1 a' ∧ LogInv sh lo hi (s.step sh (.write ops)).2 a' := by
  rw [LogSys.step] at hf' ⊢
  split at hf'
  · rename_i hc
    rw [if_pos hc]
    exact ⟨a, .rejected a, h⟩
  · rename_i hc
    rw [if_neg hc]
    simp only [not_or, not_not, Bool.not_eq_false] at hc
    obtain ⟨hupt, hne, hempty, hmax, hneed⟩ := hc
    rcases h.inv with hup | hdown
    swap
    · exact absurd hupt (by simp [hdown.up])
    refine h.runAppend hup (isGroup_groupRecords _ hne) (numbered_groupRecords _ _) ?_ hf hf'
    have hlen := lens_groupRecords_le (s.nextSeq + 1) ops
    refine Prog.wp_mono (appendGroup_spec ops _ _ _ hup.stagedOk.stage (by rw [hempty]; simp; omega)) ?_
    rintro o w d ⟨rfl, hnext, hws, hwe, hp⟩
    cases o with
    | ok x =>
      refine ⟨⟨hws, hwe⟩, ?_, Or.inl ⟨rfl, hnext, hp.1⟩⟩
      intro r hr
      obtain ⟨hk, hv⟩ := hp.2 r hr
      have hseq := ((numbered_groupRecords s.nextSeq ops).bounds r hr).2
      rw [length_groupRecords] at hseq
      obtain ⟨op, more, hrec⟩ := mem_groupRecords hr
      rw [hrec] at hk hv ⊢
      exact BatchOp.record_wf (by simp only [U64_MAX] at hmax; omega) hk hv
    | err e => exact ⟨⟨hws, hwe⟩, rfl, hnext, hp⟩
    | cut => exact hp.elim
    | dropped => exact hp.elim

/-! ### Truncating, committing, flushing -/

theorem LogInv.step_truncate (h : LogInv sh lo hi s a) (n : Nat) :
    ∃ a', AbsLog.Step sh a (s.step sh (.truncate n)).1 a' ∧ LogInv sh lo hi (s.step sh (.truncate n)).2 a' := by
  rw [LogSys.step]
  split
  · exact ⟨a, .rejected a, h⟩
  · rename_i hc
    rcases h.inv with hup | hdown
    swap
    · exact absurd hdown.up hc
    obtain ⟨landed, hp, hr⟩ := hup.region
    have hst := hup.stagedOk
    have hsplit : s.staged.flatten = (s.staged.take n).flatten ++ (s.staged.drop n).flatten := by
      rw [← List.flatten_append, List.take_append_drop]
    refine ⟨⟨a.acked, landed ++ s.staged.take n⟩, .truncated ?_, h.walStart, h.walEnd, h.lo_le, h.cuts,
      Or.inl ⟨hup.up, ⟨?_, ?_, ?_, ?_⟩, landed, rfl, hr⟩⟩
    · rw [hp]; exact (List.prefix_append_right_inj _).mpr (List.take_prefix _ _)
    · have := hst.stage
      rw [hsplit] at this
      exact this.truncate
    · exact fun g hg => hst.groups g (List.mem_of_mem_take hg)
    · have := hst.numbered
      rw [hsplit] at this
      exact (numbered_append.mp this).1
    · intro r hr'
      exact hst.wf r (by rw [hsplit]; exact List.mem_append_left _ hr')

/-- How a commit ends: the staged block was written and flushed; or nothing was; or the power was cut, before the flush
or inside the block. -/
def CommitPost (sh : Shape) (lo hi : Nat) (s : LogSys) (a : AbsLog) : Outcome Error Unit → WalWriter → Device → Prop :=
  fun o w d => CutsOnly d ∧ match o with
    | .ok _ => SameRegion s.wal w ∧ StageOk sh.BLOCK w [] ∧
        PlainRegion sh.BLOCK d lo hi s.head w.nextBlock s.floor s.nextSeq (a.acked ++ a.pending).flatten
    | .err _ => w = s.wal ∧ d = s.dev
    | .cut => NoForgeIn d lo hi → DownInv sh lo hi (s.down d) a
    | .dropped => False

theorem LogInv.commit_spec (h : LogInv sh lo hi s a) (hup : UpInv sh lo hi s a) (hf : NoForgeIn s.dev lo hi) :
    WalWriter.commit.wp (CommitPost sh lo hi s a) s.wal s.dev := by
  obtain ⟨landed, hp, hr⟩ := hup.region
  have hst := hup.stagedOk
  rw [wp_commit]
  split
  · rename_i hpos
    have hne : s.staged.flatten ≠ [] := by
      intro hc; rw [hst.stage.stageLen_eq, hc] at hpos; simp at hpos
    rw [wp_writeStage, hst.stage.padded_eq]
    split
    · exact ⟨h.cuts, rfl, rfl⟩
    · rename_i hlt
      have hlt' : s.wal.nextBlock < hi := by rw [← h.walEnd]; omega
      have hw := hup.wrote hne hlt'
      rcases h.cuts.fate with hfate | ⟨k, hfate⟩
      · rw [hfate]
        simp only [Prog.andThen_ok]
        rw [Prog.wp_flush]
        -- The block has landed; the flush may still be cut.
        have hcuts : CutsOnly (s.dev.put s.wal.nextBlock (blockOf sh.BLOCK s.staged.flatten)
            (blockOf sh.BLOCK s.staged.flatten)).advance := h.cuts.advance
        rcases hcuts.fate with hfate' | ⟨k', hfate'⟩
        · rw [hfate']
          exact ⟨hcuts.advance, ⟨rfl, rfl⟩, hst.stage.wrote, hw.keeps (.of_eq _ rfl rfl)⟩
        · rw [hfate']
          exact ⟨hcuts.advance, fun _ => ⟨rfl, _, _, a.pending, List.prefix_rfl, hw.keeps (.of_eq _ rfl rfl)⟩⟩
      · rw [hfate]
        exact ⟨h.cuts.advance, fun hf' => hup.torn hlt' hup.lo_le_next hf hf'⟩
  · rename_i hzero
    have hnil : s.staged.flatten = [] := by
      apply lens_eq_zero.mp; rw [← hst.stage.stageLen_eq]; omega
    have hstaged : s.staged = [] := by
      by_contra hc
      obtain ⟨g, gs, hgs⟩ := List.exists_cons_of_ne_nil hc
      obtain ⟨init, last, hg, -⟩ := hst.groups g (by simp [hgs])
      rw [hgs, List.flatten_cons, hg] at hnil
      simp at hnil
    have hseq : s.nextSeq = s.base := by rw [LogSys.nextSeq, hnil]; rfl
    rw [Prog.wp_flush]
    rcases h.cuts.fate with hfate | ⟨k, hfate⟩
    · rw [hfate]
      refine ⟨h.cuts.advance, ⟨rfl, rfl⟩, by rw [← hnil]; exact hst.stage, ?_⟩
      rw [hseq, hp, hstaged, List.append_nil]
      exact hr.keeps (.of_eq _ rfl rfl)
    · rw [hfate]
      exact ⟨h.cuts.advance, fun _ => ⟨rfl, _, _, landed, by rw [hp]; exact List.prefix_append _ _, hr.keeps (.of_eq _ rfl rfl)⟩⟩

theorem LogInv.step_commit (h : LogInv sh lo hi s a) (hf : NoForgeIn s.dev lo hi)
    (hf' : NoForgeIn (s.step sh .commit).2.dev lo hi) :
    ∃ a', AbsLog.Step sh a (s.step sh .commit).1 a' ∧ LogInv sh lo hi (s.step sh .commit).2 a' := by
  rw [LogSys.step] at hf' ⊢
  split at hf'
  · rename_i hc
    rw [if_pos hc]
    exact ⟨a, .rejected a, h⟩
  · rename_i hc
    rw [if_neg hc]
    rcases h.inv with hup | hdown
    swap
    · exact absurd hdown.up hc
    have hp := h.commit_spec hup hf
    rcases hrun : WalWriter.commit s.wal s.dev with ⟨o, w, d⟩
    replace hp : CommitPost sh lo hi s a o w d := by rw [Prog.wp, hrun] at hp; exact hp
    rw [hrun] at hf'
    obtain ⟨hcuts, hp⟩ := hp
    cases o with
    | ok x =>
      obtain ⟨⟨hws, hwe⟩, hstage, hr⟩ := hp
      refine ⟨⟨a.acked ++ a.pending, []⟩, .committed .., hws.trans h.walStart, hwe.trans h.walEnd, h.lo_le, hcuts,
        Or.inl ⟨hup.up, ⟨hstage, by simp [LogSys.committed], trivial, by simp [LogSys.committed]⟩, [], rfl, ?_⟩⟩
      simp only [List.append_nil]
      exact hr
    | err e =>
      obtain ⟨rfl, rfl⟩ := hp
      exact ⟨a, .rejected a, h⟩
    | cut => exact ⟨a, .crashed a, h.walStart, h.walEnd, h.lo_le, hcuts, Or.inr (hp hf')⟩
    | dropped => exact hp.elim

theorem LogInv.step_flush (h : LogInv sh lo hi s a) (hf : NoForgeIn s.dev lo hi)
    (hf' : NoForgeIn (s.step sh .flush).2.dev lo hi) :
    ∃ a', AbsLog.Step sh a (s.step sh .flush).1 a' ∧ LogInv sh lo hi (s.step sh .flush).2 a' := by
  rw [LogSys.step] at hf' ⊢
  split at hf'
  · rename_i hc
    rw [if_pos hc]
    exact ⟨a, .rejected a, h⟩
  · rename_i hc
    rw [if_neg hc]
    rcases h.inv with hup | hdown
    swap
    · exact absurd hdown.up hc
    have hp := h.commit_spec hup hf
    rcases hrun : WalWriter.commit s.wal s.dev with ⟨o, w, d⟩
    replace hp : CommitPost sh lo hi s a o w d := by rw [Prog.wp, hrun] at hp; exact hp
    rw [hrun] at hf'
    obtain ⟨hcuts, hp⟩ := hp
    cases o with
    | ok x =>
      obtain ⟨⟨hws, hwe⟩, hstage, hr⟩ := hp
      have hws' := hws.trans h.walStart
      have hwe' := hwe.trans h.walEnd
      have hseq : (s.committed w d).nextSeq = s.nextSeq := rfl
      refine ⟨⟨[], []⟩, .flushed a, ?_⟩
      simp only [LogSys.flushed, hseq]
      split
      · refine ⟨hws', hwe', h.lo_le, hcuts, Or.inl ⟨hup.up, ⟨?_, by simp [LogSys.committed], trivial,
          by simp [LogSys.committed]⟩, [], rfl, ?_⟩⟩
        · exact ⟨hstage.1, hstage.2, hstage.3, hstage.4, hstage.5, hstage.6⟩
        · exact hr.flush (le_of_eq hws'.symm) (by simp only [LogSys.committed, hws']; exact h.lo_le) le_rfl hr.floor_le
      · exact ⟨hws', hwe', h.lo_le, hcuts, Or.inl ⟨hup.up, ⟨hstage, by simp [LogSys.committed], trivial,
          by simp [LogSys.committed]⟩, [], rfl, hr.flush (le_trans hr.start_le hr.head_le) hr.next_le le_rfl
          hr.floor_le⟩⟩
    | err e =>
      obtain ⟨rfl, rfl⟩ := hp
      exact ⟨a, .rejected a, h⟩
    | cut => exact ⟨a, .crashed a, h.walStart, h.walEnd, h.lo_le, hcuts, Or.inr (hp hf')⟩
    | dropped => exact hp.elim

/-! ### Crash and recovery -/

/-- What the region keeps when the power goes now. -/
theorem LogInv.down (h : LogInv sh lo hi s a) : DownInv sh lo hi (s.down s.dev) a := by
  rcases h.inv with hup | hdown
  · exact hup.down
  · exact ⟨rfl, hdown.region⟩

theorem LogInv.step_recover (h : LogInv sh lo hi s a) (high : Nat) (hf : NoForgeIn s.dev lo hi) :
    ∃ a', AbsLog.Step sh a (s.step sh (.recover high)).1 a' ∧ LogInv sh lo hi (s.step sh (.recover high)).2 a' := by
  obtain ⟨next, top, q, hq, hr⟩ := h.down.region
  replace hr : PlainRegion sh.BLOCK s.dev lo hi s.head next s.floor top (a.acked ++ q).flatten := hr
  obtain ⟨rest, hwalk, hlone, hr'⟩ := hr.recover hf
  obtain rfl : rest = [] := List.eq_nil_iff_forall_not_mem.mpr hlone
  rw [List.append_nil] at hwalk
  rw [hwalk] at hr'
  have hp := recoverFrom_spec sh .new s.head s.floor (WalWriter.new sh s.wal.walStart s.wal.walEnd) s.dev
  have hdown : ∀ d, ReadsOnly s.dev d → LogInv sh lo hi (s.down d) ⟨a.acked ++ q, []⟩ ∧ LogInv sh lo hi (s.down d) a := by
    intro d hd
    have hreg := hr.keeps (hd.keeps _)
    exact ⟨⟨h.walStart, h.walEnd, h.lo_le, h.cuts.suffix hd.2.2,
        Or.inr ⟨rfl, next, top, [], List.nil_prefix, by rw [List.append_nil]; exact hreg⟩⟩,
      ⟨h.walStart, h.walEnd, h.lo_le, h.cuts.suffix hd.2.2, Or.inr ⟨rfl, next, top, q, hq, hreg⟩⟩⟩
  have hend : (WalWriter.new sh s.wal.walStart s.wal.walEnd).walEnd = hi := h.walEnd
  rw [hend] at hp
  rw [LogSys.step]
  rcases hrun : WalWriter.recoverFrom sh .new s.head s.floor (WalWriter.new sh s.wal.walStart s.wal.walEnd) s.dev with
    ⟨o, w, d⟩
  replace hp : RecoverPost sh .new s.head s.floor (WalWriter.new sh s.wal.walStart s.wal.walEnd) s.dev
      (walk (summaries s.dev) s.floor (hi - s.head) s.head ⟨0, none⟩) o w d := by
    rw [Prog.wp, hrun] at hp; exact hp
  obtain ⟨hd, -, -, hstage, hp⟩ := hp
  cases o with
  | ok x =>
    obtain ⟨hreplay, -, hmax, -, hw⟩ := hp
    have hlen : w.stage.length = sh.BLOCK := by
      rcases hstage with hs | ⟨i, hi1, hi2, hs⟩
      · rw [hs]; simp [WalWriter.new]
      · rw [hs]
        exact hr.length_block i (le_trans hr.start_le hi1) (hend ▸ hi2)
    rw [hw]
    refine ⟨⟨a.acked ++ q, []⟩, .recovered hq (hwalk ▸ hreplay), h.walStart, h.walEnd, h.lo_le, h.cuts.suffix hd.2.2,
      Or.inl ⟨rfl, ⟨stageOk_recovered hlen .., by simp [LogSys.recovered], trivial, by simp [LogSys.recovered]⟩, [], rfl, ?_⟩⟩
    rw [List.append_nil]
    refine (hr'.mono ?_ ?_).keeps (hd.keeps _) <;> simp only [LogSys.recovered] <;> omega
  | err e =>
    rcases hp with ⟨-, k, hk⟩ | ⟨-, e', he'⟩
    · rcases h.cuts _ hk with hc | ⟨_, hc⟩ <;> simp at hc
    · exact ⟨⟨a.acked ++ q, []⟩, .corrupt hq (hwalk ▸ he'), (hdown d hd).1⟩
  | cut => exact ⟨a, .crashed a, (hdown d hd).2⟩
  | dropped => exact ⟨a, .crashed a, (hdown d hd).2⟩

/-! ### Runs -/

theorem LogInv.step (h : LogInv sh lo hi s a) (e : LogEvent) (hf : NoForgeIn s.dev lo hi)
    (hf' : NoForgeIn (s.step sh e).2.dev lo hi) :
    ∃ a', AbsLog.Step sh a (s.step sh e).1 a' ∧ LogInv sh lo hi (s.step sh e).2 a' := by
  cases e with
  | append op => exact h.step_append op hf hf'
  | write ops => exact h.step_write ops hf hf'
  | truncate n => exact h.step_truncate n
  | commit => exact h.step_commit hf hf'
  | flush => exact h.step_flush hf hf'
  | crash => exact ⟨a, .crashed a, h.walStart, h.walEnd, h.lo_le, h.cuts, Or.inr h.down⟩
  | recover high => exact h.step_recover high hf

/-- Every run that keeps the record assumption is a run of the abstract log. -/
theorem LogInv.run (h : LogInv sh lo hi s a) (es : List LogEvent)
    (hf : ∀ n, NoForgeIn (s.run sh (es.take n)).dev lo hi) :
    ∃ a', AbsLog.Run sh a (s.labels sh es) a' ∧ LogInv sh lo hi (s.run sh es) a' := by
  induction es generalizing s a with
  | nil => exact ⟨a, .nil a, h⟩
  | cons e es ih =>
    obtain ⟨a₁, hstep, h₁⟩ := h.step e (hf 0) (by simpa [LogSys.run] using hf 1)
    obtain ⟨a₂, hrun, h₂⟩ := ih h₁ fun n => by simpa [LogSys.run] using hf (n + 1)
    exact ⟨a₂, .cons hstep hrun, h₂⟩

end Horton
