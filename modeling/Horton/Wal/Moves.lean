import Horton.Wal.Calls
import Horton.Wal.Refine

/-!
# The writer on a device that fails

The owner of a log calls its writer on a device whose calls may fail (`Tame`).  A `LogView` is the log between two of the
writer's programs: the groups that landed on the device since the head, and the staged ones.  `Moved` is what a program
does to it when it takes in groups: some of the groups land, the rest is staged behind what is staged already.  Every
program of the writer is such a move, or ends in a power cut that leaves a prefix of the groups on the device (`Fell`).
-/

namespace Horton

open BlockDev GroupLog

/-- Calls succeed or fail, and a block write that fails has left the block as it was; the power may go in any call. -/
def Tame (d : Device) : Prop := ∀ f ∈ d.fates, f = .ok ∨ f = .fail 0 ∨ ∃ k, f = .cut k

/-- From `d` on, whatever changed a block was a write of a block of records of `P`. -/
inductive Logged (P : Record → Prop) (d : Device) : Device → Prop
  | refl : Logged P d d
  | same {d' d'' : Device} (h : Logged P d d') (hb : d''.blocks = d'.blocks) (hw : d''.writes = d'.writes) : Logged P d d''
  | put {d' : Device} (h : Logged P d d') {data : Bytes} (hP : ∀ r ∈ (summary data).recs, P r) (id : Nat) (after : Bytes) :
      Logged P d (d'.put id data after)
  | failed {d' : Device} (h : Logged P d d') (id : Nat) (data : Bytes) : Logged P d (d'.put id data (d'.blocks id))

theorem Tame.advance {d : Device} (h : Tame d) : Tame d.advance := fun f hf => h f (Device.mem_advance_fates hf)

theorem Tame.suffix {d d' : Device} (h : Tame d) (hs : d'.fates <:+ d.fates) : Tame d' := fun f hf => h f (hs.subset hf)

theorem Tame.fate {d : Device} (h : Tame d) : d.fate = .ok ∨ d.fate = .fail 0 ∨ ∃ k, d.fate = .cut k := by
  rcases d.fate_mem_or_ok with ho | hm
  · exact Or.inl ho
  · exact h _ hm

namespace Logged

variable {P Q : Record → Prop} {d d' d'' : Device}

theorem of_eq (hb : d'.blocks = d.blocks) (hw : d'.writes = d.writes) : Logged P d d' := .same .refl hb hw

theorem trans (h : Logged P d d') (h' : Logged P d' d'') : Logged P d d'' := by
  induction h' with
  | refl => exact h
  | same _ hb hw ih => exact .same ih hb hw
  | put _ hP id after ih => exact .put ih hP id after
  | failed _ id data ih => exact .failed ih id data

theorem mono (h : Logged P d d') (hPQ : ∀ r, P r → Q r) : Logged Q d d' := by
  induction h with
  | refl => exact .refl
  | same _ hb hw ih => exact .same ih hb hw
  | put _ hP id after ih => exact .put ih (fun r hr => hPQ r (hP r hr)) id after
  | failed _ id data ih => exact .failed ih id data

end Logged

theorem maxSeq_append (m : Nat) (rs ss : List Record) : maxSeq m (rs ++ ss) = maxSeq (maxSeq m rs) ss := List.foldl_append

/-- The log between two programs of its writer. -/
structure LogView where
  /-- Above the numbers of the groups that landed, below those of the staged ones. -/
  base : Nat
  landed : List (List Record)
  staged : List (List Record)
  wal : WalWriter
  dev : Device

section Programs

variable {sh : Shape} {lo hi head floor : Nat}

/-- The log on the region `[lo, hi)` is in order. -/
structure LogStands (sh : Shape) (lo hi head floor : Nat) (v : LogView) : Prop where
  walStart : v.wal.walStart = lo
  walEnd : v.wal.walEnd = hi
  tame : Tame v.dev
  stage : StageOk sh.BLOCK v.wal v.staged.flatten
  groups : ∀ g ∈ v.staged, IsGroup g
  fresh : Fresh v.base v.staged.flatten
  region : PlainRegion sh.BLOCK v.dev lo hi head v.wal.nextBlock floor v.base v.landed.flatten
  /-- The record assumption on the blocks to come. -/
  ahead : ∀ j, v.wal.nextBlock ≤ j → j < hi → NoForge v.dev j

/-- A program that took in the groups `gs` led from `v` to `v'`. -/
structure Moved (sh : Shape) (lo hi head floor : Nat) (v : LogView) (gs : List (List Record)) (v' : LogView) : Prop where
  stands : LogStands sh lo hi head floor v'
  next_le : v.wal.nextBlock ≤ v'.wal.nextBlock
  landed : ∃ m, v'.landed = v.landed ++ m ∧ m ++ v'.staged = v.staged ++ gs ∧ v'.base = maxSeq v.base m.flatten ∧
    (∀ g ∈ m, IsGroup g) ∧ (v'.wal.nextBlock = v.wal.nextBlock → m = [])
  logged : Logged (fun r => r ∈ (v.staged ++ gs).flatten) v.dev v'.dev
  quiet : v'.wal.nextBlock = v.wal.nextBlock → Logged (fun _ => False) v.dev v'.dev

/-- The power went in a program that was taking in the groups `gs`: a prefix of what was staged and of `gs` landed. -/
structure Fell (sh : Shape) (lo hi head floor : Nat) (v : LogView) (gs : List (List Record)) (d : Device) : Prop where
  tame : Tame d
  logged : Logged (fun r => r ∈ (v.staged ++ gs).flatten) v.dev d
  region : NoForgeIn d lo hi → ∃ next top q, q <+: v.staged ++ gs ∧
    PlainRegion sh.BLOCK d lo hi head next floor top (v.landed ++ q).flatten

/-- How a program of the writer ends. -/
def Ends {α : Type} (sh : Shape) (lo hi head floor : Nat) (v : LogView) (gs : List (List Record))
    (K : α → LogView → Prop) (E : LogView → Prop) : Outcome Error α → WalWriter → Device → Prop := fun o w d => match o with
  | .ok a => ∃ v', v'.wal = w ∧ v'.dev = d ∧ K a v'
  | .err _ => ∃ v', v'.wal = w ∧ v'.dev = d ∧ E v'
  | .cut => Fell sh lo hi head floor v gs d
  | .dropped => False

variable {v v' v'' : LogView} {gs hs : List (List Record)}

theorem Moved.refl (h : LogStands sh lo hi head floor v) : Moved sh lo hi head floor v [] v :=
  ⟨h, le_rfl, ⟨[], by simp, by simp, rfl, by simp, fun _ => rfl⟩, .refl, fun _ => .refl⟩

theorem Moved.mem_staged (h : Moved sh lo hi head floor v gs v') :
    ∀ r ∈ v'.staged.flatten, r ∈ (v.staged ++ gs).flatten := by
  obtain ⟨m, -, hm, -⟩ := h.landed
  intro r hr
  rw [← hm, List.flatten_append]
  exact List.mem_append_right _ hr

theorem Moved.mem_more (h : Moved sh lo hi head floor v gs v') (hs : List (List Record)) :
    ∀ r ∈ (v'.staged ++ hs).flatten, r ∈ (v.staged ++ (gs ++ hs)).flatten := by
  intro r hr
  rw [List.flatten_append, List.mem_append] at hr
  rw [← List.append_assoc, List.flatten_append, List.mem_append]
  exact hr.imp (h.mem_staged r) id

theorem Moved.trans (h : Moved sh lo hi head floor v gs v') (h' : Moved sh lo hi head floor v' hs v'') :
    Moved sh lo hi head floor v (gs ++ hs) v'' := by
  obtain ⟨m, hl, hm, hb, hg, hz⟩ := h.landed
  obtain ⟨m', hl', hm', hb', hg', hz'⟩ := h'.landed
  have hle := h.next_le
  have hle' := h'.next_le
  refine ⟨h'.stands, hle.trans hle', ⟨m ++ m', ?_, ?_, ?_, ?_, ?_⟩, ?_, fun hn => ?_⟩
  · rw [hl', hl, List.append_assoc]
  · rw [List.append_assoc, hm', ← List.append_assoc, hm, List.append_assoc]
  · rw [hb', hb, List.flatten_append, maxSeq_append]
  · intro g hgm
    rcases List.mem_append.mp hgm with hgm | hgm
    · exact hg g hgm
    · exact hg' g hgm
  · intro hn
    rw [hz (by omega), hz' (by omega)]
    rfl
  · refine (h.logged.mono ?_).trans (h'.logged.mono (h.mem_more hs))
    intro r hr
    rw [← List.append_assoc, List.flatten_append]
    exact List.mem_append_left _ hr
  · exact (h.quiet (by omega)).trans (h'.quiet (by omega))

theorem Fell.after (h : Moved sh lo hi head floor v gs v') {d : Device} (hf : Fell sh lo hi head floor v' hs d) :
    Fell sh lo hi head floor v (gs ++ hs) d := by
  obtain ⟨m, hl, hm, -⟩ := h.landed
  refine ⟨hf.tame, ?_, ?_⟩
  · refine (h.logged.mono ?_).trans (hf.logged.mono (h.mem_more hs))
    intro r hr
    rw [← List.append_assoc, List.flatten_append]
    exact List.mem_append_left _ hr
  · intro hforge
    obtain ⟨next, top, q, hq, hr⟩ := hf.region hforge
    refine ⟨next, top, m ++ q, ?_, ?_⟩
    · rw [← List.append_assoc, ← hm, List.append_assoc]
      exact (List.prefix_append_right_inj m).mpr hq
    · rw [hl, List.append_assoc] at hr
      exact hr

theorem Fell.more {d : Device} (h : Fell sh lo hi head floor v gs d) (hs : List (List Record)) :
    Fell sh lo hi head floor v (gs ++ hs) d := by
  refine ⟨h.tame, h.logged.mono ?_, ?_⟩
  · intro r hr
    rw [← List.append_assoc, List.flatten_append]
    exact List.mem_append_left _ hr
  · intro hforge
    obtain ⟨next, top, q, hq, hr⟩ := h.region hforge
    refine ⟨next, top, q, ?_, hr⟩
    rw [← List.append_assoc]
    exact hq.trans (List.prefix_append _ _)

theorem LogStands.lo_le_next (h : LogStands sh lo hi head floor v) : lo ≤ v.wal.nextBlock :=
  h.region.start_le.trans h.region.head_le

/-! ### Block writes -/

/-- The staged block has landed. -/
def LogView.wrote (size : Nat) (v : LogView) : LogView where
  base := maxSeq v.base v.staged.flatten
  landed := v.landed ++ v.staged
  staged := []
  wal := v.wal.wrote
  dev := (v.dev.put v.wal.nextBlock (blockOf size v.staged.flatten) (blockOf size v.staged.flatten)).advance

/-- The device after a write of the staged block of which `k` bytes landed. -/
def LogView.torn (size : Nat) (v : LogView) (k : Nat) : Device :=
  (v.dev.put v.wal.nextBlock (blockOf size v.staged.flatten)
    (Bytes.tear k (blockOf size v.staged.flatten) (v.dev.blocks v.wal.nextBlock))).advance

private theorem LogStands.summary_block (h : LogStands sh lo hi head floor v) :
    ∀ r ∈ (summary (blockOf sh.BLOCK v.staged.flatten)).recs, r ∈ v.staged.flatten := by
  intro r hr
  rwa [summary_blockOf h.fresh.wf h.fresh.increasing] at hr

private theorem LogStands.logged_put (h : LogStands sh lo hi head floor v) (after : Bytes) :
    Logged (fun r => r ∈ (v.staged ++ []).flatten) v.dev
      (v.dev.put v.wal.nextBlock (blockOf sh.BLOCK v.staged.flatten) after).advance := by
  refine .same (.put .refl ?_ v.wal.nextBlock after) rfl rfl
  intro r hr
  rw [List.append_nil]
  exact h.summary_block r hr

theorem LogStands.wrote (h : LogStands sh lo hi head floor v) (hne : v.staged.flatten ≠ []) (hlt : v.wal.nextBlock < hi) :
    Moved sh lo hi head floor v [] (v.wrote sh.BLOCK) := by
  have hlo := h.lo_le_next
  have hlen := length_blockOf h.stage.fits
  have ht := ((torn_refl v.dev v.wal.nextBlock (blockOf sh.BLOCK v.staged.flatten)).put_whole
    (by rw [hlen, h.region.length_block _ hlo hlt])).advance
  have hregion := h.region.write_whole ht h.fresh h.stage.fits (by omega) (closed_flatten h.groups) hne hlt
    (le_maxSeq v.base v.staged.flatten) (le_maxSeq _ _) fun r hr => seq_le_maxSeq hr
  refine ⟨⟨h.walStart, h.walEnd, h.tame.advance, h.stage.wrote, by simp [LogView.wrote], ?_, ?_, ?_⟩, Nat.le_succ _,
    ⟨v.staged, rfl, by simp [LogView.wrote], rfl, h.groups, ?_⟩, h.logged_put _, ?_⟩
  · exact ⟨by simp [LogView.wrote], by simp [LogView.wrote, Increasing], by simp [LogView.wrote]⟩
  · rw [← List.flatten_append] at hregion
    exact hregion
  · intro j hj hj'
    have hj : v.wal.nextBlock + 1 ≤ j := hj
    refine (h.ahead j (by omega) hj').keeps (P := fun i => i ≠ v.wal.nextBlock) ?_ (by omega)
    exact ((Keeps.refl _ v.dev).put (by simp) _ _).advance
  · intro hc
    exact absurd (show v.wal.nextBlock + 1 = v.wal.nextBlock from hc) (by omega)
  · intro hc
    exact absurd (show v.wal.nextBlock + 1 = v.wal.nextBlock from hc) (by omega)

/-- A write that failed left the block as it was. -/
theorem LogStands.failed (h : LogStands sh lo hi head floor v) (hlt : v.wal.nextBlock < hi) :
    Moved sh lo hi head floor v [] { v with wal := v.wal.sealed, dev := v.torn sh.BLOCK 0 } := by
  have hlo := h.lo_le_next
  have hlen := length_blockOf h.stage.fits
  have hblocks : (v.torn sh.BLOCK 0).blocks = v.dev.blocks := by
    funext j
    rw [LogView.torn, Bytes.tear_zero, Device.advance_blocks]
    by_cases hj : j = v.wal.nextBlock
    · rw [hj, Device.put_blocks_same]
    · rw [Device.put_blocks_ne _ _ _ hj]
  have hkept : ∀ w ∈ v.dev.writes, w ∈ (v.torn sh.BLOCK 0).writes := by
    intro w hw
    rw [LogView.torn, Device.advance_writes, Device.put_writes]
    exact List.mem_append_left _ hw
  have ht : Torn v.dev (v.torn sh.BLOCK 0) v.wal.nextBlock (blockOf sh.BLOCK v.staged.flatten) 0 :=
    ((torn_refl v.dev v.wal.nextBlock (blockOf sh.BLOCK v.staged.flatten)).put
      (by rw [hlen, h.region.length_block _ hlo hlt]) 0).advance
  have hfailed : ∀ P, Logged P v.dev (v.torn sh.BLOCK 0) := by
    intro P
    rw [LogView.torn, Bytes.tear_zero]
    exact .same (.failed .refl _ _) rfl rfl
  have hregion := h.region.write_failed ht h.fresh h.stage.fits hlt (fun _ hl => hl) (by
    -- A new record that stood there already would have been written there before, and be stale.
    intro o r hpl hd hm
    rw [hblocks] at hd
    obtain ⟨pre, post, hr, -⟩ := mem_placed.mp hpl
    have hnew := h.fresh.newer r (by rw [hr]; simp)
    have hfl := h.region.floor_le
    rcases h.region.stale_next hlt (h.ahead _ le_rfl hlt o r hd) hm with hold | ⟨-, hfalse⟩
    · omega
    · exact hfalse.elim)
  refine ⟨⟨h.walStart, h.walEnd, h.tame.advance, h.stage.sealed, h.groups, h.fresh, hregion, ?_⟩, le_rfl,
    ⟨[], by simp, by simp, rfl, by simp, fun _ => rfl⟩, hfailed _, fun _ => hfailed _⟩
  intro j hj hj' o r hd
  rw [show (v.torn sh.BLOCK 0).blocks = v.dev.blocks from hblocks] at hd
  obtain ⟨w, hw, hr⟩ := h.ahead j hj hj' o r hd
  exact ⟨w, hkept w hw, hr⟩

theorem LogStands.torn (h : LogStands sh lo hi head floor v) (hlt : v.wal.nextBlock < hi) (k : Nat) :
    Fell sh lo hi head floor v [] (v.torn sh.BLOCK k) := by
  have hlo := h.lo_le_next
  refine ⟨h.tame.advance, h.logged_put _, ?_⟩
  intro hforge
  have ht := ((torn_refl v.dev v.wal.nextBlock (blockOf sh.BLOCK v.staged.flatten)).put
    (by rw [length_blockOf h.stage.fits, h.region.length_block _ hlo hlt]) k).advance
  obtain ⟨n, next, hr⟩ := h.region.write_torn ht h.fresh h.stage.fits hlt (le_maxSeq v.base v.staged.flatten)
    (le_maxSeq _ _) (fun r hr => seq_le_maxSeq hr) (h.ahead _ le_rfl hlt) (hforge _ hlo hlt)
  obtain ⟨m, hm⟩ := closed_take_flatten h.groups n
  refine ⟨next, maxSeq v.base v.staged.flatten, v.staged.take m, ?_, ?_⟩
  · rw [List.append_nil]
    exact List.take_prefix _ _
  · rw [hm, ← List.flatten_append] at hr
    exact hr

/-- A device call that wrote nothing. -/
theorem LogStands.advance (h : LogStands sh lo hi head floor v) :
    Moved sh lo hi head floor v [] { v with dev := v.dev.advance } := by
  refine ⟨⟨h.walStart, h.walEnd, h.tame.advance, h.stage, h.groups, h.fresh, h.region.keeps (.of_eq _ rfl rfl), ?_⟩, le_rfl,
    ⟨[], by simp, by simp, rfl, by simp, fun _ => rfl⟩, .of_eq rfl rfl, fun _ => .of_eq rfl rfl⟩
  exact fun j hj hj' => h.ahead j hj hj'

theorem LogStands.cut (h : LogStands sh lo hi head floor v) : Fell sh lo hi head floor v [] v.dev.advance := by
  refine ⟨h.tame.advance, .of_eq rfl rfl, fun _ => ⟨v.wal.nextBlock, v.base, [], List.nil_prefix, ?_⟩⟩
  rw [List.append_nil]
  exact h.region.keeps (.of_eq _ rfl rfl)

/-! ### Programs of the writer -/

/-- A group was staged, and nothing else happened. -/
theorem LogStands.stageGroup (h : LogStands sh lo hi head floor v) {g : List Record} {w : WalWriter} (hg : IsGroup g)
    (hfresh : Fresh (maxSeq v.base v.staged.flatten) g) (hws : w.walStart = v.wal.walStart)
    (hwe : w.walEnd = v.wal.walEnd) (hnext : w.nextBlock = v.wal.nextBlock)
    (hst : StageOk sh.BLOCK w (v.staged.flatten ++ g)) :
    Moved sh lo hi head floor v [g] { v with staged := v.staged ++ [g], wal := w } := by
  have hflat : (v.staged ++ [g]).flatten = v.staged.flatten ++ g := by simp
  refine ⟨⟨hws.trans h.walStart, hwe.trans h.walEnd, h.tame, hflat ▸ hst, ?_, ?_, ?_, ?_⟩, hnext.ge,
    ⟨[], by simp, by simp, rfl, by simp, fun _ => rfl⟩, .refl, fun _ => .refl⟩
  · intro g' hg'
    rcases List.mem_append.mp hg' with hg' | hg'
    · exact h.groups g' hg'
    · rw [List.mem_singleton.mp hg']
      exact hg
  · refine hflat ▸ ⟨?_, ?_, ?_⟩
    · intro r hr
      exact (List.mem_append.mp hr).elim (h.fresh.wf r) (hfresh.wf r)
    · refine List.pairwise_append.mpr ⟨h.fresh.increasing, hfresh.increasing, ?_⟩
      intro a ha b hb
      exact lt_of_le_of_lt (seq_le_maxSeq ha) (hfresh.newer b hb)
    · intro r hr
      rcases List.mem_append.mp hr with hr | hr
      · exact h.fresh.newer r hr
      · exact lt_of_le_of_lt (le_maxSeq _ _) (hfresh.newer r hr)
  · have hregion := h.region
    rw [← hnext] at hregion
    exact hregion
  · intro j hj hj'
    exact h.ahead j (hnext ▸ hj) hj'

theorem isGroup_single {r : Record} (h : r.more = false) : IsGroup [r] := ⟨[], r, rfl, by simp, h⟩

theorem LogStands.walFull (h : LogStands sh lo hi head floor v) : v.wal.nextBlock < v.wal.walEnd ↔ v.wal.nextBlock < hi := by
  rw [h.walEnd]

/-- Appending a record: it is staged, behind the staged ones or behind a block of them that landed. -/
theorem LogStands.append (h : LogStands sh lo hi head floor v) {rec : BatchRecord}
    (hseq : maxSeq v.base v.staged.flatten < rec.seq) :
    (rec.append sh).wp (Ends sh lo hi head floor v [[rec.record]]
      (fun _ v' => Moved sh lo hi head floor v [[rec.record]] v') (fun v' => Moved sh lo hi head floor v [] v'))
      v.wal v.dev := by
  have hmore : IsGroup [rec.record] := isGroup_single rfl
  rw [rec.append_eq sh]
  refine Prog.wp_mono (rec.toBatchOp.append_spec h.stage rec.seq false) ?_
  intro o w d hp
  cases o with
  | ok u =>
    obtain ⟨hk, hv, hb, hp⟩ := hp
    have hlen : rec.record.len ≤ sh.BLOCK := hb
    have hwf : rec.record.WF := BatchOp.record_wf rec.seqLt hk hv
    have hfresh : ∀ b, b < rec.seq → Fresh b [rec.record] := by
      intro b hlt
      refine ⟨?_, List.pairwise_singleton _ _, ?_⟩
      · intro r hr
        rw [List.mem_singleton.mp hr]
        exact hwf
      · intro r hr
        rw [List.mem_singleton.mp hr]
        exact hlt
    rcases hp with ⟨hfit, rfl, rfl⟩ | ⟨hover, hlt, -, rfl, rfl⟩
    · exact ⟨{ v with staged := v.staged ++ [[rec.record]], wal := v.wal.stageRecord rec.record }, rfl, rfl,
        h.stageGroup hmore (hfresh _ hseq) rfl rfl rfl (h.stage.stageRecord hfit)⟩
    · have hne : v.staged.flatten ≠ [] := by
        intro hc
        rw [hc, lens_nil] at hover
        omega
      have hw := h.wrote hne (h.walFull.mp hlt)
      have hst := hw.stands.stage.stageRecord (r := rec.record) (by simpa [LogView.wrote] using hlen)
      have hm := hw.trans
        (hw.stands.stageGroup (w := (v.wrote sh.BLOCK).wal.stageRecord rec.record) hmore (hfresh _ hseq) rfl rfl rfl hst)
      exact ⟨_, rfl, rfl, hm⟩
  | err e =>
    rcases hp with ⟨rfl, rfl⟩ | ⟨-, hlt, k, hk, rfl, rfl⟩
    · exact ⟨v, rfl, rfl, .refl h⟩
    · rcases h.tame.fate with hfate | hfate | ⟨_, hfate⟩
      · simp [hfate] at hk
      · obtain rfl : 0 = k := by simpa [hfate] using hk
        exact ⟨_, rfl, rfl, h.failed (h.walFull.mp hlt)⟩
      · simp [hfate] at hk
  | cut =>
    obtain ⟨-, hlt, k, -, rfl⟩ := hp
    exact (h.torn (h.walFull.mp hlt) k).more _
  | dropped =>
    obtain ⟨-, -, k, hk, -⟩ := hp
    rcases h.tame.fate with hfate | hfate | ⟨_, hfate⟩ <;> simp [hfate] at hk

/-- What a program took in is the highest number then. -/
theorem Moved.top_eq (h : Moved sh lo hi head floor v gs v') :
    maxSeq v'.base v'.staged.flatten = maxSeq v.base (v.staged ++ gs).flatten := by
  obtain ⟨m, -, hm, hb, -⟩ := h.landed
  rw [hb, ← maxSeq_append, ← List.flatten_append, hm]

theorem Moved.top_single {rec : BatchRecord} (h : Moved sh lo hi head floor v [[rec.record]] v')
    (hseq : maxSeq v.base v.staged.flatten < rec.seq) : maxSeq v'.base v'.staged.flatten = rec.seq := by
  rw [h.top_eq, List.flatten_append, maxSeq_append]
  exact max_eq_right hseq.le

/-- A program behind one that took in `gs`. -/
theorem Ends.after {α : Type} {K K' : α → LogView → Prop} {E E' : LogView → Prop} {o : Outcome Error α} {w : WalWriter}
    {d : Device} (hm : Moved sh lo hi head floor v gs v') (h : Ends sh lo hi head floor v' hs K E o w d)
    (hK : ∀ a v'', K a v'' → K' a v'') (hE : ∀ v'', E v'' → E' v'') :
    Ends sh lo hi head floor v (gs ++ hs) K' E' o w d := by
  cases o with
  | ok a =>
    obtain ⟨v', hw, hd, hk⟩ := h
    exact ⟨v', hw, hd, hK a v' hk⟩
  | err e =>
    obtain ⟨v', hw, hd, he⟩ := h
    exact ⟨v', hw, hd, hE v' he⟩
  | cut => exact Fell.after hm h
  | dropped => exact h

/-- The loop of a batch takes in the records before the one whose append fails. -/
theorem LogStands.appendRecords (h : LogStands sh lo hi head floor v) (recs : List BatchRecord) (appended : Nat)
    (hinc : recs.Pairwise fun a b => a.seq < b.seq) (hnew : ∀ rec ∈ recs, maxSeq v.base v.staged.flatten < rec.seq) :
    (WalWriter.appendRecords sh recs appended).wp (Ends sh lo hi head floor v (singles recs)
      (fun r v' => ∃ k, r.1 = appended + k ∧ k ≤ recs.length ∧ Moved sh lo hi head floor v (singles (recs.take k)) v')
      (fun _ => False)) v.wal v.dev := by
  induction recs generalizing v appended with
  | nil => exact ⟨v, rfl, rfl, 0, rfl, le_rfl, .refl h⟩
  | cons rec recs ih =>
    obtain ⟨hlt, hinc⟩ := List.pairwise_cons.mp hinc
    have hseq := hnew rec List.mem_cons_self
    rw [WalWriter.appendRecords, Prog.wp_bind, Prog.wp_attempt]
    refine Prog.wp_mono (h.append hseq) ?_
    intro o w d hp
    cases o with
    | ok u =>
      obtain ⟨v₁, rfl, rfl, hm⟩ := hp
      have htop := hm.top_single hseq
      dsimp only [Prog.andThen_ok]
      refine Prog.wp_mono (ih hm.stands (appended + 1) hinc fun r hr => by rw [htop]; exact hlt r hr) ?_
      intro o w d hp
      refine hp.after hm ?_ fun _ hf => hf
      rintro r v' ⟨k, hk, hle, hm'⟩
      exact ⟨k + 1, by omega, Nat.succ_le_succ hle, hm.trans hm'⟩
    | err e =>
      obtain ⟨v', rfl, rfl, hm⟩ := hp
      exact ⟨v', rfl, rfl, 0, rfl, Nat.zero_le _, hm⟩
    | cut => exact Fell.more hp (singles recs)
    | dropped => exact hp

/-- A commit lands what is staged; where it fails, the staged groups may have landed or not. -/
theorem LogStands.commit (h : LogStands sh lo hi head floor v) :
    WalWriter.commit.wp (Ends sh lo hi head floor v [] (fun _ v' => Moved sh lo hi head floor v [] v' ∧ v'.staged = [])
      (fun v' => Moved sh lo hi head floor v [] v')) v.wal v.dev := by
  -- The flush behind the block write, if there was one.
  have hflush : ∀ v', Moved sh lo hi head floor v [] v' → v'.staged = [] →
      (Prog.flush .device).wp (Ends sh lo hi head floor v [] (fun _ v' => Moved sh lo hi head floor v [] v' ∧ v'.staged = [])
        (fun v' => Moved sh lo hi head floor v [] v')) v'.wal v'.dev := by
    intro v' hm hnil
    have hadv := hm.trans hm.stands.advance
    rw [Prog.wp_flush]
    rcases hm.stands.tame.fate with hfate | hfate | ⟨k, hfate⟩
    · rw [hfate]
      exact ⟨{ v' with dev := v'.dev.advance }, rfl, rfl, hadv, hnil⟩
    · rw [hfate]
      exact ⟨{ v' with dev := v'.dev.advance }, rfl, rfl, hadv⟩
    · rw [hfate]
      exact Fell.after hm hm.stands.cut
  rw [wp_commit]
  split
  · rename_i hpos
    have hne : v.staged.flatten ≠ [] := by
      intro hc
      rw [h.stage.stageLen_eq, hc] at hpos
      simp at hpos
    rw [wp_writeStage, h.stage.padded_eq]
    split
    · exact ⟨v, rfl, rfl, .refl h⟩
    · rename_i hlt
      have hlt' := h.walFull.mp (not_le.mp hlt)
      rcases h.tame.fate with hfate | hfate | ⟨k, hfate⟩
      · rw [hfate]
        exact hflush _ (h.wrote hne hlt') rfl
      · rw [hfate]
        exact ⟨_, rfl, rfl, h.failed hlt'⟩
      · rw [hfate]
        exact h.torn hlt' k
  · rename_i hzero
    have hnil : v.staged = [] := by
      by_contra hc
      obtain ⟨g, gs, hgs⟩ := List.exists_cons_of_ne_nil hc
      obtain ⟨init, last, hg, -⟩ := h.groups g (by simp [hgs])
      have hflat : v.staged.flatten = [] := by
        apply lens_eq_zero.mp
        rw [← h.stage.stageLen_eq]
        omega
      rw [hgs, List.flatten_cons, hg] at hflat
      simp at hflat
    exact hflush v (.refl h) hnil

/-- What was staged since a mark is taken back, unless something landed. -/
theorem Moved.truncate (h : Moved sh lo hi head floor v gs v') (hv : LogStands sh lo hi head floor v)
    (hsame : v'.wal.nextBlock = v.wal.nextBlock) :
    Moved sh lo hi head floor v [] { v' with staged := v.staged, wal := v'.wal.truncateStage v.wal.stageLen } := by
  obtain ⟨m, hl, hm, hb, -, hz⟩ := h.landed
  obtain rfl := hz hsame
  rw [List.append_nil] at hl
  have hquiet := h.quiet hsame
  have hst := h.stands.stage
  rw [show v'.staged = v.staged ++ gs from hm, List.flatten_append] at hst
  have hb : v'.base = v.base := hb
  refine ⟨⟨h.stands.walStart, h.stands.walEnd, h.stands.tame, ?_, hv.groups, hb.symm ▸ hv.fresh, h.stands.region, ?_⟩,
    h.next_le, ⟨[], by simpa using hl, by simp, hb, by simp, fun _ => rfl⟩, hquiet.mono (fun _ hf => hf.elim),
    fun _ => hquiet⟩
  · rw [hv.stage.stageLen_eq]
    exact hst.truncate
  · exact fun j hj hj' => h.stands.ahead j hj hj'

theorem LogStands.appendBatch (h : LogStands sh lo hi head floor v) (recs : List BatchRecord)
    (hinc : recs.Pairwise fun a b => a.seq < b.seq) (hnew : ∀ rec ∈ recs, maxSeq v.base v.staged.flatten < rec.seq) :
    (WalWriter.appendBatch sh recs).wp (Ends sh lo hi head floor v (singles recs)
      (fun rep v' => rep.consumed ≤ recs.length ∧ Moved sh lo hi head floor v (singles (recs.take rep.consumed)) v' ∧
        (rep.durable = 0 ∨ (rep.durable = rep.consumed ∧ v'.staged = [])))
      (fun _ => False)) v.wal v.dev := by
  rw [WalWriter.appendBatch]
  split
  · exact ⟨v, rfl, rfl, Nat.zero_le _, .refl h, Or.inl rfl⟩
  rw [Prog.wp_bind, Prog.wp_get, Prog.andThen_ok, Prog.wp_bind]
  refine Prog.wp_mono (h.appendRecords recs 0 hinc hnew) ?_
  intro o w d hp
  cases o with
  | err e =>
    obtain ⟨v', rfl, rfl, hf⟩ := hp
    exact hf.elim
  | cut => exact hp
  | dropped => exact hp
  | ok r =>
    obtain ⟨v₁, rfl, rfl, k, hk, hle, hm⟩ := hp
    rw [Nat.zero_add] at hk
    rw [Prog.andThen_ok, Prog.wp_bind, Prog.wp_attempt]
    refine Prog.wp_mono hm.stands.commit ?_
    intro o w d hp
    cases o with
    | dropped => exact hp.elim
    | cut =>
      have hfell := Fell.after hm hp
      rw [List.append_nil] at hfell
      have hsplit : singles recs = singles (recs.take k) ++ singles (recs.drop k) := by
        rw [singles, singles, singles, ← List.map_append, List.take_append_drop]
      rw [hsplit]
      exact hfell.more _
    | ok u =>
      obtain ⟨v₂, rfl, rfl, hm₂, hnil⟩ := hp
      have hm' := hm.trans hm₂
      rw [List.append_nil] at hm'
      exact ⟨v₂, rfl, rfl, hk ▸ hle, hk.symm ▸ hm', Or.inr ⟨rfl, hnil⟩⟩
    | err e =>
      obtain ⟨v₂, rfl, rfl, hm₂⟩ := hp
      have hm' := hm.trans hm₂
      rw [List.append_nil] at hm'
      simp only [Prog.wp_bind, Prog.wp_get, Prog.andThen_ok]
      split
      · rename_i hsame
        exact ⟨{ v₂ with staged := v.staged, wal := v₂.wal.truncateStage v.wal.stageLen }, rfl, rfl, Nat.zero_le _,
          hm'.truncate h hsame, Or.inl rfl⟩
      · exact ⟨v₂, rfl, rfl, hk ▸ hle, hk.symm ▸ hm', Or.inl rfl⟩

/-- A group of a batch that fits the buffer is staged whole or not at all. -/
theorem LogStands.appendWhole (h : LogStands sh lo hi head floor v) {seq : Nat} {ops : List BatchOp} (hne : ops ≠ [])
    (hempty : v.staged = []) (hseq : v.base < seq) (hmax : seq + ops.length ≤ 2 ^ 64)
    (hneed : (ops.map BatchOp.needWal).sum ≤ sh.BLOCK) :
    (WalWriter.appendWhole sh seq ops).wp (Ends sh lo hi head floor v [groupRecords seq ops]
      (fun _ v' => Moved sh lo hi head floor v [groupRecords seq ops] v') (fun v' => Moved sh lo hi head floor v [] v'))
      v.wal v.dev := by
  obtain ⟨n, rfl⟩ : ∃ n, seq = n + 1 := ⟨seq - 1, by omega⟩
  have hlen := lens_groupRecords_le (n + 1) ops
  have hnum := numbered_groupRecords n ops
  have hfit : lens v.staged.flatten + lens (groupRecords (n + 1) ops) ≤ sh.BLOCK := by
    rw [hempty]
    simp
    omega
  rw [WalWriter.appendWhole, Prog.wp_bind, Prog.wp_get, Prog.andThen_ok, Prog.wp_bind, Prog.wp_attempt]
  refine Prog.wp_mono (appendGroup_spec ops _ _ _ h.stage hfit) ?_
  rintro o w d ⟨rfl, hnext, hws, hwe, hp⟩
  cases o with
  | cut => exact hp.elim
  | dropped => exact hp.elim
  | ok u =>
    have hwf : ∀ r ∈ groupRecords (n + 1) ops, r.WF := by
      intro r hr
      obtain ⟨hk, hv⟩ := hp.2 r hr
      have hb := (hnum.bounds r hr).2
      rw [length_groupRecords] at hb
      obtain ⟨op, more, hrec⟩ := mem_groupRecords hr
      rw [hrec] at hk hv ⊢
      exact BatchOp.record_wf (by omega) hk hv
    have hfresh : Fresh (maxSeq v.base v.staged.flatten) (groupRecords (n + 1) ops) := by
      refine ⟨hwf, hnum.increasing, ?_⟩
      intro r hr
      have hb := (hnum.bounds r hr).1
      rw [hempty]
      exact lt_of_le_of_lt (show v.base ≤ n by omega) hb
    exact ⟨{ v with staged := v.staged ++ [groupRecords (n + 1) ops], wal := w }, rfl, rfl,
      h.stageGroup (isGroup_groupRecords _ hne) hfresh hws hwe hnext hp.1⟩
  | err e =>
    obtain ⟨part, hst⟩ := hp
    refine ⟨{ v with wal := w.truncateStage v.wal.stageLen }, rfl, rfl, ?_⟩
    have hregion := h.region
    rw [← hnext] at hregion
    refine ⟨⟨hws.trans h.walStart, hwe.trans h.walEnd, h.tame, ?_, h.groups, h.fresh, hregion, ?_⟩, hnext.ge,
      ⟨[], by simp, by simp, rfl, by simp, fun _ => rfl⟩, .refl, fun _ => .refl⟩
    · rw [h.stage.stageLen_eq]
      exact hst.truncate
    · exact fun j hj hj' => h.ahead j (hnext ▸ hj) hj'

end Programs

end Horton
