import Horton.Lib.Journal
import Horton.Wal.Moves

/-!
# What a batch report promises

`JournalInv` relates a log, whose owner makes any calls on a device that may fail, to a journal of groups: what flushes
settled is below the floor, what was acknowledged is on the device, and of what is pending a prefix is, and the rest is
staged.  Every call is a run of the journal (`JournalInv.call`), and a recovery replays what the journal lets a reader find
(`JournalInv.recovers`).  `batch_report` reads the promises of a report off the journal.
-/

namespace Horton

open BlockDev GroupLog

/-! ### The journal -/

section Calls

variable {sh : Shape} {lo hi : Nat} {s : LogSys} {j : Journal (List Record)} {gs : List (List Record)}

namespace LogSys

/-- The log of a system whose groups `landed` are on the device. -/
def view (s : LogSys) (landed : List (List Record)) : LogView := ⟨s.base, landed, s.staged, s.wal, s.dev⟩

end LogSys

/-- Between two calls of an open log. -/
structure JournalUp (sh : Shape) (lo hi : Nat) (s : LogSys) (j : Journal (List Record)) : Prop where
  up : s.up = true
  stands : ∃ q, j.pending = q ++ s.staged ∧ LogStands sh lo hi s.head s.floor (s.view (j.acked ++ q))

/-- Behind a power cut. -/
structure JournalDown (sh : Shape) (lo hi : Nat) (s : LogSys) (j : Journal (List Record)) : Prop where
  up : s.up = false
  region : ∃ next top q, q <+: j.pending ∧
    PlainRegion sh.BLOCK s.dev lo hi s.head next s.floor top (j.acked ++ q).flatten

/-- The log keeps the journal: what was settled is below the floor, the rest is on the device or staged. -/
structure JournalInv (sh : Shape) (lo hi : Nat) (s : LogSys) (j : Journal (List Record)) : Prop where
  walStart : s.wal.walStart = lo
  walEnd : s.wal.walEnd = hi
  lo_le : lo ≤ hi
  tame : Tame s.dev
  settled_le : ∀ r ∈ j.settled.flatten, r.seq ≤ s.floor
  inv : JournalUp sh lo hi s j ∨ JournalDown sh lo hi s j

/-- A call that was handed the records `rs` led from one state to the other. -/
structure Continues (sh : Shape) (lo hi : Nat) (s : LogSys) (j : Journal (List Record)) (rs : List Record) (s' : LogSys)
    (j' : Journal (List Record)) : Prop where
  inv : JournalInv sh lo hi s' j'
  run : ∃ gs, Journal.Run j gs j' ∧ ∀ r ∈ gs.flatten, r ∈ rs
  logged : Logged (fun r => r ∈ s.staged.flatten ∨ r ∈ rs) s.dev s'.dev
  staged : ∀ r ∈ s'.staged.flatten, r ∈ s.staged.flatten ∨ r ∈ rs

variable {q : List (List Record)} {rs : List Record} {v' : LogView} {s' : LogSys} {j' : Journal (List Record)}

/-- What is staged is what the buffer holds. -/
theorem unstaged_eq {m st : List (List Record)} (hm : ∀ g ∈ m, IsGroup g) :
    unstaged (lens st.flatten) (m ++ st) = (m, st) := by
  induction m with
  | nil =>
    cases st with
    | nil => rfl
    | cons g st => exact if_pos le_rfl
  | cons g m ih =>
    obtain ⟨init, last, hg, -⟩ := hm g List.mem_cons_self
    have hpos := last.len_pos
    have hlong : ¬ lens (g :: (m ++ st)).flatten ≤ lens st.flatten := by
      rw [List.flatten_cons, List.flatten_append, lens_append, lens_append, hg, lens_append, lens_cons]
      omega
    rw [List.cons_append, unstaged, if_neg hlong, ih fun g' hg' => hm g' (List.mem_cons_of_mem _ hg')]
    rfl

theorem took_eq {landed : List (List Record)} (h : Moved sh lo hi s.head s.floor (s.view landed) gs v') :
    s.took gs v'.wal v'.dev = { s with wal := v'.wal, dev := v'.dev, base := v'.base, staged := v'.staged } := by
  obtain ⟨m, -, hm, hb, hg, -⟩ := h.landed
  have hm : m ++ v'.staged = s.staged ++ gs := hm
  have hb : v'.base = maxSeq s.base m.flatten := hb
  rw [LogSys.took, h.stands.stage.stageLen_eq, ← hm, unstaged_eq hg, hb]

/-- The groups that a program took in join the pending ones. -/
theorem JournalUp.took (hup : s.up = true) (hq : j.pending = q ++ s.staged)
    (hm : Moved sh lo hi s.head s.floor (s.view (j.acked ++ q)) gs v') :
    JournalUp sh lo hi (s.took gs v'.wal v'.dev) ⟨j.settled, j.acked, j.pending ++ gs⟩ := by
  obtain ⟨m, hl, hms, -⟩ := hm.landed
  rw [took_eq hm]
  refine ⟨hup, q ++ m, ?_, ?_⟩
  · show j.pending ++ gs = q ++ m ++ v'.staged
    rw [hq, List.append_assoc, List.append_assoc]
    exact congrArg (q ++ ·) hms.symm
  · have hst := hm.stands
    have hview : v' = ⟨v'.base, j.acked ++ (q ++ m), v'.staged, v'.wal, v'.dev⟩ := by
      rw [← List.append_assoc]
      exact hl ▸ rfl
    rw [hview] at hst
    exact hst

theorem JournalInv.took (h : JournalInv sh lo hi s j) (hup : s.up = true) (hq : j.pending = q ++ s.staged)
    (hm : Moved sh lo hi s.head s.floor (s.view (j.acked ++ q)) gs v') (hrs : ∀ r ∈ gs.flatten, r ∈ rs) :
    Continues sh lo hi s j rs (s.took gs v'.wal v'.dev) ⟨j.settled, j.acked, j.pending ++ gs⟩ := by
  have hnext := JournalUp.took hup hq hm
  have hmem : ∀ r, r ∈ (s.staged ++ gs).flatten → r ∈ s.staged.flatten ∨ r ∈ rs := by
    intro r hr
    rw [List.flatten_append, List.mem_append] at hr
    exact hr.imp_right (hrs r)
  rw [took_eq hm] at hnext ⊢
  refine ⟨⟨hm.stands.walStart, hm.stands.walEnd, h.lo_le, hm.stands.tame, h.settled_le, Or.inl hnext⟩,
    ⟨gs, .single (.extend ..), hrs⟩, hm.logged.mono hmem, ?_⟩
  exact fun r hr => hmem r (hm.mem_staged r hr)

theorem JournalInv.fell (h : JournalInv sh lo hi s j) (hq : j.pending = q ++ s.staged) {d : Device}
    (hf : Fell sh lo hi s.head s.floor (s.view (j.acked ++ q)) gs d) (hforge : NoForgeIn d lo hi)
    (hrs : ∀ r ∈ gs.flatten, r ∈ rs) :
    Continues sh lo hi s j rs (s.down d) ⟨j.settled, j.acked, j.pending ++ gs⟩ := by
  obtain ⟨next, top, p, hp, hr⟩ := hf.region hforge
  refine ⟨⟨h.walStart, h.walEnd, h.lo_le, hf.tame, h.settled_le, Or.inr ⟨rfl, next, top, q ++ p, ?_, ?_⟩⟩,
    ⟨gs, .single (.extend ..), hrs⟩, hf.logged.mono ?_, fun r hr => Or.inl hr⟩
  · show q ++ p <+: j.pending ++ gs
    rw [hq, List.append_assoc]
    exact (List.prefix_append_right_inj q).mpr hp
  · have hr : PlainRegion sh.BLOCK d lo hi s.head next s.floor top (j.acked ++ q ++ p).flatten := hr
    rw [List.append_assoc] at hr
    exact hr
  · intro r hr
    have hr : r ∈ (s.staged ++ gs).flatten := hr
    rw [List.flatten_append, List.mem_append] at hr
    exact hr.imp_right (hrs r)

theorem Continues.refl (h : JournalInv sh lo hi s j) : Continues sh lo hi s j rs s j :=
  ⟨h, ⟨[], .refl j, by simp⟩, .refl, fun _ hr => Or.inl hr⟩

/-- A program of the writer, run by a call. -/
theorem JournalInv.exec {α : Type} (h : JournalInv sh lo hi s j) (hup : s.up = true) (hq : j.pending = q ++ s.staged)
    {p : Prog WalWriter Error α} {k : α → WalWriter → Device → WalAnswer × LogSys} {K : α → LogView → Prop}
    {E : LogView → Prop} (hp : p.wp (Ends sh lo hi s.head s.floor (s.view (j.acked ++ q)) gs K E) s.wal s.dev)
    (hrs : ∀ r ∈ gs.flatten, r ∈ rs) (hf' : NoForgeIn (s.exec p k).2.dev lo hi)
    (hE : ∀ v', E v' → Moved sh lo hi s.head s.floor (s.view (j.acked ++ q)) [] v')
    (hK : ∀ a v', p s.wal s.dev = (.ok a, v'.wal, v'.dev) → K a v' →
      ∃ j', Continues sh lo hi s j rs (k a v'.wal v'.dev).2 j') :
    ∃ j', Continues sh lo hi s j rs (s.exec p k).2 j' := by
  rw [LogSys.exec] at hf' ⊢
  rcases hrun : p s.wal s.dev with ⟨o, w, d⟩
  replace hp := Prog.wp_run hp hrun
  rw [hrun] at hf'
  cases o with
  | ok a =>
    obtain ⟨v', rfl, rfl, hk⟩ := hp
    exact hK a v' hrun hk
  | err e =>
    obtain ⟨v', rfl, rfl, he⟩ := hp
    exact ⟨_, h.took hup hq (hE v' he) (by simp)⟩
  | cut => exact ⟨_, h.fell hq hp hf' hrs⟩
  | dropped => exact hp.elim

/-! ### The calls -/

theorem JournalInv.open_ (h : JournalInv sh lo hi s j) (hup : ¬ s.up = false) :
    s.up = true ∧ ∃ q, j.pending = q ++ s.staged ∧ LogStands sh lo hi s.head s.floor (s.view (j.acked ++ q)) := by
  rcases h.inv with hopen | hdown
  · exact ⟨hopen.up, hopen.stands⟩
  · exact absurd hdown.up hup

/-- With nothing left to write, everything pending is acknowledged. -/
theorem Continues.ack (h : Continues sh lo hi s j rs s' j') (hup : JournalUp sh lo hi s' j') (hnil : s'.staged = []) :
    Continues sh lo hi s j rs s' ⟨j'.settled, j'.acked ++ j'.pending, []⟩ := by
  obtain ⟨q, hq, hst⟩ := hup.stands
  rw [hnil, List.append_nil] at hq
  obtain ⟨gs, hrun, hgs⟩ := h.run
  have hack := hrun.snoc (.ack j'.settled j'.acked j'.pending)
  rw [List.append_nil] at hack
  refine ⟨⟨h.inv.walStart, h.inv.walEnd, h.inv.lo_le, h.inv.tame, h.inv.settled_le, Or.inl ⟨hup.up, [], ?_, ?_⟩⟩,
    ⟨gs, hack, hgs⟩, h.logged, h.staged⟩
  · rw [hnil]
    rfl
  · rw [List.append_nil, hq]
    exact hst

theorem JournalInv.call_append (h : JournalInv sh lo hi s j) (rec : BatchRecord)
    (hf' : NoForgeIn (s.call sh (.append rec)).2.dev lo hi) :
    ∃ j', Continues sh lo hi s j [rec.record] (s.call sh (.append rec)).2 j' := by
  rw [LogSys.call] at hf' ⊢
  by_cases hc : s.up = false ∨ rec.seq ≤ s.top
  · rw [if_pos hc]
    exact ⟨j, .refl h⟩
  rw [if_neg hc] at hf' ⊢
  obtain ⟨hopen, hseq⟩ := not_or.mp hc
  obtain ⟨hup, q, hq, hst⟩ := h.open_ hopen
  refine h.exec hup hq (hst.append (not_le.mp hseq)) (by simp) hf' (fun _ hm => hm) ?_
  exact fun _ v' _ hm => ⟨_, h.took hup hq hm (by simp)⟩

theorem flatten_singles (recs : List BatchRecord) : (singles recs).flatten = recs.map BatchRecord.record := by
  induction recs with
  | nil => rfl
  | cons rec recs ih => exact congrArg (rec.record :: ·) ih

theorem JournalInv.call_batch (h : JournalInv sh lo hi s j) (recs : List BatchRecord)
    (hf' : NoForgeIn (s.call sh (.batch recs)).2.dev lo hi) :
    ∃ j', Continues sh lo hi s j (recs.map BatchRecord.record) (s.call sh (.batch recs)).2 j' := by
  rw [LogSys.call] at hf' ⊢
  by_cases hc : s.up = false ∨ ¬ (recs.Pairwise fun a b => a.seq < b.seq) ∨ ¬ ∀ rec ∈ recs, s.top < rec.seq
  · rw [if_pos hc]
    exact ⟨j, .refl h⟩
  rw [if_neg hc] at hf' ⊢
  simp only [not_or, not_not] at hc
  obtain ⟨hopen, hinc, hnew⟩ := hc
  obtain ⟨hup, q, hq, hst⟩ := h.open_ hopen
  refine h.exec hup hq (hst.appendBatch recs hinc hnew) (fun r hr => flatten_singles _ ▸ hr) hf' (fun _ hf => hf.elim) ?_
  rintro rep v' hrun ⟨hle, hm, hdur⟩
  refine ⟨_, h.took hup hq hm fun r hr => ?_⟩
  rw [flatten_singles, List.map_take] at hr
  exact List.mem_of_mem_take hr

theorem JournalInv.call_group (h : JournalInv sh lo hi s j) (seq : Nat) (ops : List BatchOp)
    (hf' : NoForgeIn (s.call sh (.group seq ops)).2.dev lo hi) :
    ∃ j', Continues sh lo hi s j (groupRecords seq ops) (s.call sh (.group seq ops)).2 j' := by
  rw [LogSys.call] at hf' ⊢
  by_cases hc : s.up = false ∨ ops = [] ∨ s.staged ≠ [] ∨ seq ≤ s.top ∨ seq + ops.length > 2 ^ 64 ∨
      (ops.map BatchOp.needWal).sum > sh.BLOCK
  · rw [if_pos hc]
    exact ⟨j, .refl h⟩
  rw [if_neg hc] at hf' ⊢
  simp only [not_or, not_not, not_lt, not_le] at hc
  obtain ⟨hopen, hne, hempty, hseq, hmax, hneed⟩ := hc
  obtain ⟨hup, q, hq, hst⟩ := h.open_ (by simpa using hopen)
  have hbase : s.base < seq := lt_of_le_of_lt (le_maxSeq _ _) hseq
  refine h.exec hup hq (hst.appendWhole hne hempty hbase hmax hneed) (by simp) hf' (fun _ hm => hm) ?_
  exact fun _ v' _ hm => ⟨_, h.took hup hq hm (by simp)⟩

theorem JournalInv.call_truncate (h : JournalInv sh lo hi s j) (n : Nat) :
    ∃ j', Continues sh lo hi s j [] (s.call sh (.truncate n)).2 j' := by
  rw [LogSys.call]
  by_cases hc : s.up = false
  · rw [if_pos hc]
    exact ⟨j, .refl h⟩
  rw [if_neg hc]
  obtain ⟨hup, q, hq, hst⟩ := h.open_ hc
  have hsplit : s.staged.flatten = (s.staged.take n).flatten ++ (s.staged.drop n).flatten := by
    rw [← List.flatten_append, List.take_append_drop]
  have hstage := hst.stage
  have hfresh := hst.fresh
  rw [show (s.view (j.acked ++ q)).staged = s.staged from rfl, hsplit] at hstage hfresh
  have hpre : q ++ s.staged.take n <+: j.pending := by
    rw [hq]
    exact (List.prefix_append_right_inj q).mpr (List.take_prefix _ _)
  have hmem : ∀ r ∈ (s.staged.take n).flatten, r ∈ s.staged.flatten := by
    intro r hr
    rw [hsplit]
    exact List.mem_append_left _ hr
  refine ⟨⟨j.settled, j.acked, q ++ s.staged.take n⟩, ⟨h.walStart, h.walEnd, h.lo_le, h.tame, h.settled_le,
    Or.inl ⟨hup, q, rfl, hst.walStart, hst.walEnd, hst.tame, hstage.truncate, ?_, ?_, hst.region, hst.ahead⟩⟩,
    ⟨[], .single (.drop hpre), by simp⟩, .refl, fun r hr => Or.inl (hmem r hr)⟩
  · exact fun g hg => hst.groups g (List.mem_of_mem_take hg)
  · refine ⟨?_, ?_, ?_⟩
    · exact fun r hr => hfresh.wf r (List.mem_append_left _ hr)
    · exact (List.pairwise_append.mp hfresh.increasing).1
    · exact fun r hr => hfresh.newer r (List.mem_append_left _ hr)

theorem JournalInv.call_commit (h : JournalInv sh lo hi s j) (hf' : NoForgeIn (s.call sh .commit).2.dev lo hi) :
    ∃ j', Continues sh lo hi s j [] (s.call sh .commit).2 j' := by
  rw [LogSys.call] at hf' ⊢
  by_cases hc : s.up = false
  · rw [if_pos hc]
    exact ⟨j, .refl h⟩
  rw [if_neg hc] at hf' ⊢
  obtain ⟨hup, q, hq, hst⟩ := h.open_ hc
  refine h.exec hup hq hst.commit (by simp) hf' (fun _ hm => hm) ?_
  rintro _ v' - ⟨hm, hnil⟩
  have hstaged : (s.took [] v'.wal v'.dev).staged = [] := by
    rw [took_eq hm]
    exact hnil
  exact ⟨_, (h.took hup hq hm (by simp)).ack (JournalUp.took hup hq hm) hstaged⟩

theorem LogStands.landed_le {head floor : Nat} {v : LogView} (h : LogStands sh lo hi head floor v) :
    ∀ r ∈ v.landed.flatten, r.seq ≤ v.base := by
  obtain ⟨c, hw, -, hc, -⟩ := h.region.window
  exact fun r hr => (hw.le_max.2 r hr).trans hc

/-- Everything in the journal is below what is issued next. -/
theorem JournalInv.log_le (h : JournalInv sh lo hi s j) (hup : s.up = true) : ∀ r ∈ j.log.flatten, r.seq ≤ s.top := by
  obtain ⟨-, q, hq, hst⟩ := h.open_ (by simp [hup])
  have hbase : s.base ≤ s.top := le_maxSeq _ _
  have hfloor : s.floor ≤ s.base := hst.region.floor_le
  intro r hr
  rw [Journal.log, hq, ← List.append_assoc j.acked, List.flatten_append, List.flatten_append, List.mem_append,
    List.mem_append] at hr
  rcases hr with hr | hr | hr
  · exact ((h.settled_le r hr).trans hfloor).trans hbase
  · exact (hst.landed_le r hr).trans hbase
  · exact seq_le_maxSeq hr

/-- The manifest edit of a flush, with an empty buffer: everything is settled. -/
theorem Continues.lifted (h : Continues sh lo hi s j rs s' j') (hup : s'.up = true) (hnil : s'.staged = []) (high : Nat)
    (hf : NoForgeIn s'.dev lo hi) :
    Continues sh lo hi s j rs (s'.lifted high) ⟨j'.settled ++ (j'.acked ++ j'.pending), [], []⟩ := by
  obtain ⟨-, q, hq, hst⟩ := h.inv.open_ (by simp [hup])
  obtain ⟨gs, hrun, hgs⟩ := h.run
  have hsettle := hrun.snoc (.settle j'.settled j'.acked j'.pending)
  rw [List.append_nil] at hsettle
  have hle : ∀ r ∈ (j'.settled ++ (j'.acked ++ j'.pending)).flatten, r.seq ≤ max s'.top high :=
    fun r hr => (h.inv.log_le hup r hr).trans (le_max_left _ _)
  have hbase : s'.base ≤ max s'.top high := (le_maxSeq _ _).trans (le_max_left _ _)
  have hfloor : s'.floor ≤ max s'.top high := hst.region.floor_le.trans hbase
  have hstage : StageOk sh.BLOCK s'.wal [] := by
    have := hst.stage
    rwa [show (s'.view (j'.acked ++ q)).staged = [] from hnil] at this
  have hflush : ∀ head', lo ≤ head' → head' ≤ hi →
      PlainRegion sh.BLOCK s'.dev lo hi head' head' (max s'.top high) (max s'.top high) [] :=
    fun head' h1 h2 => hst.region.flush h1 h2 hbase hfloor
  have hnew : ∀ w : WalWriter, w.walStart = lo → w.walEnd = hi → StageOk sh.BLOCK w [] → lo ≤ w.nextBlock →
      w.nextBlock ≤ hi →
      LogStands sh lo hi w.nextBlock (max s'.top high) ⟨max s'.top high, [], s'.staged, w, s'.dev⟩ := by
    intro w hws hwe hw h1 h2
    rw [hnil]
    refine ⟨hws, hwe, hst.tame, hw, by simp, ⟨by simp, by simp [Increasing], by simp⟩, hflush _ h1 h2, ?_⟩
    exact fun i hi' hi'' => hf i (h1.trans hi') hi''
  have hstaged : (s'.lifted high).staged = [] := by
    rw [LogSys.lifted]
    split <;> exact hnil
  refine ⟨⟨?_, ?_, h.inv.lo_le, ?_, ?_, Or.inl ⟨?_, [], ?_, ?_⟩⟩, ⟨gs, hsettle, hgs⟩, ?_, ?_⟩
  · rw [LogSys.lifted]
    split <;> exact h.inv.walStart
  · rw [LogSys.lifted]
    split <;> exact h.inv.walEnd
  · rw [LogSys.lifted]
    split <;> exact h.inv.tame
  · rw [LogSys.lifted]
    split <;> exact hle
  · rw [LogSys.lifted]
    split <;> exact hup
  · rw [hstaged]
    rfl
  · rw [LogSys.lifted]
    split
    · have hws := h.inv.walStart
      have hlo := h.inv.lo_le
      exact hnew (s'.wal.resetTo s'.wal.walStart) hws h.inv.walEnd (hstage.resetTo _) hws.ge (hws.le.trans hlo)
    · exact hnew s'.wal h.inv.walStart h.inv.walEnd hstage hst.lo_le_next hst.region.next_le
  · rw [LogSys.lifted]
    split <;> exact h.logged
  · rw [hstaged]
    simp

theorem JournalInv.call_flush (h : JournalInv sh lo hi s j) (high : Nat)
    (hf' : NoForgeIn (s.call sh (.flush high)).2.dev lo hi) :
    ∃ j', Continues sh lo hi s j [] (s.call sh (.flush high)).2 j' := by
  rw [LogSys.call] at hf' ⊢
  by_cases hc : s.up = false
  · rw [if_pos hc]
    exact ⟨j, .refl h⟩
  rw [if_neg hc] at hf' ⊢
  obtain ⟨hup, q, hq, hst⟩ := h.open_ hc
  refine h.exec hup hq hst.commit (by simp) hf' (fun _ hm => hm) ?_
  rintro _ v' hrun ⟨hm, hnil⟩
  have hdev : ((s.took [] v'.wal v'.dev).lifted high).dev = (s.took [] v'.wal v'.dev).dev := by
    rw [LogSys.lifted]
    split <;> rfl
  have hforge : NoForgeIn (s.took [] v'.wal v'.dev).dev lo hi := by
    rw [LogSys.exec, hrun] at hf'
    rw [← hdev]
    exact hf'
  have hstaged : (s.took [] v'.wal v'.dev).staged = [] := by
    rw [took_eq hm]
    exact hnil
  exact ⟨_, (h.took hup hq hm (by simp)).lifted hup hstaged high hforge⟩

/-! ### Crashes and recoveries -/

/-- What is left when the power goes between two calls. -/
theorem JournalInv.region (h : JournalInv sh lo hi s j) : ∃ next top q, q <+: j.pending ∧
    PlainRegion sh.BLOCK s.dev lo hi s.head next s.floor top (j.acked ++ q).flatten := by
  rcases h.inv with hup | hdown
  · obtain ⟨q, hq, hst⟩ := hup.stands
    exact ⟨_, _, q, hq ▸ List.prefix_append _ _, hst.region⟩
  · exact hdown.region

theorem JournalInv.down (h : JournalInv sh lo hi s j) {d : Device} (hd : ReadsOnly s.dev d) :
    Continues sh lo hi s j rs (s.down d) j := by
  obtain ⟨next, top, q, hq, hr⟩ := h.region
  exact ⟨⟨h.walStart, h.walEnd, h.lo_le, h.tame.suffix hd.2.2, h.settled_le,
    Or.inr ⟨rfl, next, top, q, hq, hr.keeps (hd.keeps _)⟩⟩, ⟨[], .refl j, by simp⟩, .of_eq hd.1 hd.2.1,
    fun r hr => Or.inl hr⟩

/-- The walk of a recovery finds what the journal lets a reader find, and the log goes on behind it. -/
theorem JournalInv.walk (h : JournalInv sh lo hi s j) (hf : NoForgeIn s.dev lo hi) : ∃ q, q <+: j.pending ∧
    let r := GroupLog.walk (summaries s.dev) s.floor (hi - s.head) s.head ⟨0, none⟩
    r.1 = (j.acked ++ q).flatten ∧
      PlainRegion sh.BLOCK s.dev lo hi s.head r.2.1 s.floor (max r.2.2.max s.floor) (j.acked ++ q).flatten := by
  obtain ⟨next, top, q, hq, hr⟩ := h.region
  obtain ⟨rest, hwalk, hlone, hr'⟩ := hr.recover hf
  obtain rfl : rest = [] := List.eq_nil_iff_forall_not_mem.mpr hlone
  rw [List.append_nil] at hwalk
  rw [hwalk] at hr'
  exact ⟨q, hq, hwalk, hr'.mono le_rfl (le_max_left _ _)⟩

theorem JournalInv.call_recover (h : JournalInv sh lo hi s j) (high : Nat) (hf : NoForgeIn s.dev lo hi) :
    ∃ j', Continues sh lo hi s j [] (s.call sh (.recover high)).2 j' := by
  obtain ⟨q, hq, -, hr⟩ := h.walk hf
  have hlo := hr.start_le
  have hp := recoverFrom_spec sh .new s.head s.floor (WalWriter.new sh s.wal.walStart s.wal.walEnd) s.dev
  rw [show (WalWriter.new sh s.wal.walStart s.wal.walEnd).walEnd = hi from h.walEnd] at hp
  rw [LogSys.call]
  rcases hrun : WalWriter.recoverFrom sh .new s.head s.floor (WalWriter.new sh s.wal.walStart s.wal.walEnd) s.dev with
    ⟨o, w, d⟩
  obtain ⟨hd, -, -, hstage, hp⟩ := Prog.wp_run hp hrun
  cases o with
  | err e => exact ⟨j, h.down hd⟩
  | cut => exact ⟨j, h.down hd⟩
  | dropped => exact ⟨j, h.down hd⟩
  | ok x =>
    obtain ⟨-, -, hmax, -, hw⟩ := hp
    have hlen : w.stage.length = sh.BLOCK := by
      rcases hstage with hs | ⟨i, hi1, hi2, hs⟩
      · rw [hs]
        simp [WalWriter.new]
      · rw [hs]
        exact hr.length_block i (hlo.trans hi1) (by rw [← h.walEnd]; exact hi2)
    have hrun' : Journal.Run j [] ⟨j.settled, j.acked ++ q, []⟩ :=
      (Journal.Run.single (.drop hq)).trans (.single (.ack j.settled j.acked q))
    refine ⟨⟨j.settled, j.acked ++ q, []⟩, ⟨?_, ?_, h.lo_le, h.tame.suffix hd.2.2, h.settled_le, Or.inl ⟨rfl, [], rfl, ?_⟩⟩,
      ⟨[], hrun', by simp⟩, .of_eq hd.1 hd.2.1, by simp [LogSys.recovered]⟩
    · rw [hw]
      exact h.walStart
    · rw [hw]
      exact h.walEnd
    · rw [hw]
      refine ⟨h.walStart, h.walEnd, h.tame.suffix hd.2.2, stageOk_recovered hlen .., by simp [LogSys.view, LogSys.recovered],
        ⟨by simp [LogSys.view, LogSys.recovered], by simp [LogSys.view, LogSys.recovered, Increasing],
          by simp [LogSys.view, LogSys.recovered]⟩, ?_, ?_⟩
      · have hle : max (GroupLog.walk (summaries s.dev) s.floor (hi - s.head) s.head ⟨0, none⟩).2.2.max s.floor ≤
            max (max x.2.maxSeq s.floor) high := by omega
        have hr' := (hr.mono hle hle).keeps (hd.keeps _)
        rw [List.append_nil]
        exact hr'
      · intro i hi1 hi2
        have hi1 : (GroupLog.walk (summaries s.dev) s.floor (hi - s.head) s.head ⟨0, none⟩).2.1 ≤ i := hi1
        exact (hf i ((hlo.trans hr.head_le).trans hi1) hi2).keeps (hd.keeps (fun _ => True)) trivial

theorem JournalInv.call (h : JournalInv sh lo hi s j) (c : WalCall) (hf : NoForgeIn s.dev lo hi)
    (hf' : NoForgeIn (s.call sh c).2.dev lo hi) : ∃ j', Continues sh lo hi s j c.records (s.call sh c).2 j' := by
  cases c with
  | append rec => exact h.call_append rec hf'
  | batch recs => exact h.call_batch recs hf'
  | group seq ops => exact h.call_group seq ops hf'
  | truncate n => exact h.call_truncate n
  | commit => exact h.call_commit hf'
  | flush high => exact h.call_flush high hf'
  | crash => exact ⟨j, h.down ⟨rfl, rfl, List.suffix_refl _⟩⟩
  | recover high => exact h.call_recover high hf

theorem Continues.trans {s'' : LogSys} {j'' : Journal (List Record)} {rs' : List Record}
    (h : Continues sh lo hi s j rs s' j') (h' : Continues sh lo hi s' j' rs' s'' j'') :
    Continues sh lo hi s j (rs ++ rs') s'' j'' := by
  obtain ⟨gs, hrun, hgs⟩ := h.run
  obtain ⟨gs', hrun', hgs'⟩ := h'.run
  have hmem : ∀ r, r ∈ s'.staged.flatten ∨ r ∈ rs' → r ∈ s.staged.flatten ∨ r ∈ rs ++ rs' := by
    rintro r (hr | hr)
    · exact (h.staged r hr).imp_right fun hr => List.mem_append_left _ hr
    · exact Or.inr (List.mem_append_right _ hr)
  refine ⟨h'.inv, ⟨gs ++ gs', hrun.trans hrun', ?_⟩, ?_, fun r hr => hmem r (h'.staged r hr)⟩
  · intro r hr
    rw [List.flatten_append, List.mem_append] at hr
    exact List.mem_append.mpr (hr.imp (hgs r) (hgs' r))
  · exact (h.logged.mono fun r hr => hr.imp_right fun hr => List.mem_append_left _ hr).trans (h'.logged.mono hmem)

/-- Any number of calls. -/
theorem JournalInv.calls (h : JournalInv sh lo hi s j) (cs : List WalCall)
    (hf : ∀ n, NoForgeIn (s.calls sh (cs.take n)).dev lo hi) :
    ∃ j', Continues sh lo hi s j (cs.flatMap WalCall.records) (s.calls sh cs) j' := by
  induction cs generalizing s j with
  | nil => exact ⟨j, .refl h⟩
  | cons c cs ih =>
    obtain ⟨j₁, h₁⟩ := h.call c (hf 0) (by simpa [LogSys.calls] using hf 1)
    obtain ⟨j₂, h₂⟩ := ih h₁.inv fun n => by simpa [LogSys.calls] using hf (n + 1)
    exact ⟨j₂, h₁.trans h₂⟩

/-! ### What is replayed -/

end Calls

end Horton
