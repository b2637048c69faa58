import Horton.Db.Flush

/-!
# Where a flushed table goes

The table writer never leaves its run of data blocks, and the range-tombstone section takes the number of blocks that was
planned for it, so all blocks of a flushed table lie in the run that the plan counted.
-/

namespace Horton

open BlockDev

/-- Block `j` is none of the `n` blocks from `base` on. -/
def Outside (base n j : Nat) : Prop := ¬ (base ≤ j ∧ j < base + n)

theorem Outside.mono {base n base' n' j : Nat} (h : Outside base n j) (h1 : base ≤ base') (h2 : base' + n' ≤ base + n) :
    Outside base' n' j := by
  unfold Outside at h ⊢
  omega

variable {sh : Shape} {d d₀ : Device} {base limit : Nat}

/-- A block write inside the run. -/
theorem keeps_writeBlock {σ : Type} {s : σ} {n id : Nat} {data : Bytes} (hk : Keeps (Outside base n) d₀ d)
    (h : base ≤ id ∧ id < base + n) :
    (Prog.writeBlock Error.device id data).wp (fun _ s' d' => s' = s ∧ Keeps (Outside base n) d₀ d') s d := by
  have hid : ¬ Outside base n id := not_not.mpr h
  rw [Prog.wp_writeBlock]
  cases d.fate with
  | ok => exact ⟨rfl, (hk.put hid _ _).advance⟩
  | fail k => exact ⟨rfl, (hk.put hid _ _).advance⟩
  | cut k => exact ⟨rfl, (hk.put hid _ _).advance⟩
  | drop k => exact ⟨rfl, (hk.put hid _ _).advance⟩

/-! ### Data blocks -/

namespace TableWriter

/-- A writer inside its run of `limit` data blocks. -/
structure InRun (base limit : Nat) (w : TableWriter) : Prop where
  base_eq : w.base = base
  limit_eq : w.dataLimit = limit
  le : w.dataBlocks ≤ limit

variable {w : TableWriter}

theorem sealCurrent_extent (h : w.InRun base limit) (hlt : w.dataBlocks < limit) (hk : Keeps (Outside base limit) d₀ d)
    (compressed : Bool) :
    (sealCurrent sh compressed).wp (fun _ w' d' => w'.InRun base limit ∧ Keeps (Outside base limit) d₀ d') w d := by
  have hb := h.base_eq
  rw [sealCurrent, Prog.wp_bind, Prog.wp_get, Prog.andThen_ok]
  split
  · exact ⟨h, hk⟩
  rw [Prog.wp_bind]
  cases Sstable.sealData sh w.data w.payload w.restarts compressed with
  | error e => exact ⟨h, hk⟩
  | ok block =>
    rw [Prog.wp_ofExcept_ok, Prog.andThen_ok, Prog.wp_bind, Prog.wp_set, Prog.andThen_ok, Prog.wp_bind]
    refine Prog.wp_mono (keeps_writeBlock hk (by omega)) ?_
    rintro o w' d' ⟨rfl, hk'⟩
    cases o with
    | err e => exact ⟨⟨hb, h.limit_eq, h.le⟩, hk'⟩
    | cut => exact ⟨⟨hb, h.limit_eq, h.le⟩, hk'⟩
    | dropped => exact ⟨⟨hb, h.limit_eq, h.le⟩, hk'⟩
    | ok u =>
      rw [Prog.andThen_ok, Prog.wp_bind]
      cases Sstable.appendIndex sh w.index w.blockFirst (w.base + w.dataBlocks) w.blockMaxSeq with
      | error e => exact ⟨⟨hb, h.limit_eq, h.le⟩, hk'⟩
      | ok index => exact ⟨⟨hb, h.limit_eq, hlt⟩, hk'⟩

theorem push_extent (h : w.InRun base limit) (hk : Keeps (Outside base limit) d₀ d) (e : SstEntry) (compressed : Bool) :
    (push sh e compressed).wp (fun _ w' d' => w'.InRun base limit ∧ Keeps (Outside base limit) d₀ d') w d := by
  have hlim := h.limit_eq
  have hstage : ∀ (elen : Nat) (sealed : PushOutcome) (w' : TableWriter) (d' : Device), w'.InRun base limit →
      Keeps (Outside base limit) d₀ d' →
      (do
        let w ← Prog.get
        if w.n % Sstable.RESTART_INTERVAL = 0 ∧ w.payload > U16_MAX then Prog.throw .tableTooLarge
        else
          Prog.set (w.stageEntry e elen)
          return sealed : Prog TableWriter Error PushOutcome).wp
        (fun _ w' d' => w'.InRun base limit ∧ Keeps (Outside base limit) d₀ d') w' d' := by
    intro elen sealed w' d' h' hk'
    rw [Prog.wp_bind, Prog.wp_get, Prog.andThen_ok]
    split
    · exact ⟨h', hk'⟩
    · exact ⟨⟨h'.base_eq, h'.limit_eq, h'.le⟩, hk'⟩
  rw [push, Prog.wp_bind]
  cases Sstable.entrySizes e with
  | error x => exact ⟨h, hk⟩
  | ok elen =>
    rw [Prog.wp_ofExcept_ok, Prog.andThen_ok]
    split
    · exact ⟨h, hk⟩
    rw [Prog.wp_bind, Prog.wp_get, Prog.andThen_ok]
    dsimp only
    split
    · exact hstage elen _ w d h hk
    split
    · exact ⟨h, hk⟩
    split
    · exact ⟨h, hk⟩
    rename_i hroom
    rw [Prog.wp_bind]
    refine Prog.wp_mono (sealCurrent_extent h (by omega) hk compressed) ?_
    rintro o w' d' ⟨h', hk'⟩
    cases o with
    | err x => exact ⟨h', hk'⟩
    | cut => exact ⟨h', hk'⟩
    | dropped => exact ⟨h', hk'⟩
    | ok u =>
      rw [Prog.andThen_ok]
      split
      · exact hstage elen _ w' d' h' hk'
      · exact ⟨h', hk'⟩

theorem pushAll_extent (es : List SstEntry) (compressed : Bool) (h : w.InRun base limit)
    (hk : Keeps (Outside base limit) d₀ d) :
    (Sstable.pushAll sh compressed es).wp (fun _ w' d' => w'.InRun base limit ∧ Keeps (Outside base limit) d₀ d') w d := by
  induction es generalizing w d with
  | nil => exact ⟨h, hk⟩
  | cons e es ih =>
    rw [Sstable.pushAll, Prog.wp_bind]
    refine Prog.wp_mono (push_extent h hk e compressed) ?_
    rintro o w' d' ⟨h', hk'⟩
    cases o with
    | ok u => exact ih h' hk'
    | err x => exact ⟨h', hk'⟩
    | cut => exact ⟨h', hk'⟩
    | dropped => exact ⟨h', hk'⟩

theorem sealTail_extent (h : w.InRun base limit) (hk : Keeps (Outside base limit) d₀ d) (compressed : Bool) :
    (sealTail sh compressed).wp (fun o w' d' => w'.InRun base limit ∧ Keeps (Outside base limit) d₀ d' ∧
      ∀ n, o = .ok n → n = w'.dataBlocks) w d := by
  have hlim := h.limit_eq
  have hend : ∀ (w' : TableWriter) (d' : Device), w'.InRun base limit → Keeps (Outside base limit) d₀ d' →
      (do
        let w ← Prog.get
        return w.dataBlocks : Prog TableWriter Error Nat).wp (fun o w' d' => w'.InRun base limit ∧
          Keeps (Outside base limit) d₀ d' ∧ ∀ n, o = .ok n → n = w'.dataBlocks) w' d' := by
    intro w' d' h' hk'
    exact ⟨h', hk', fun n hn => (Outcome.ok.inj hn).symm⟩
  rw [sealTail, Prog.wp_bind, Prog.wp_get, Prog.andThen_ok]
  split
  · split
    · exact ⟨h, hk, fun n hn => by cases hn⟩
    · rename_i hlt
      rw [Prog.wp_bind]
      refine Prog.wp_mono (sealCurrent_extent h (by omega) hk compressed) ?_
      rintro o w' d' ⟨h', hk'⟩
      cases o with
      | ok u => exact hend w' d' h' hk'
      | err x => exact ⟨h', hk', fun n hn => by cases hn⟩
      | cut => exact ⟨h', hk', fun n hn => by cases hn⟩
      | dropped => exact ⟨h', hk', fun n hn => by cases hn⟩
  · exact hend w d h hk

/-- The last three blocks of a table. -/
theorem finishMeta_extent {total rdelBlocks : Nat} (hb : w.base = base) (hle : w.dataBlocks + rdelBlocks + 3 ≤ total)
    (hk : Keeps (Outside base total) d₀ d) (rdelMinSeq : Nat) :
    (finishMeta sh rdelBlocks rdelMinSeq).wp (fun _ _ d' => Keeps (Outside base total) d₀ d') w d := by
  rw [finishMeta, Prog.wp_bind, Prog.wp_get, Prog.andThen_ok]
  dsimp only
  split
  · exact hk
  rw [Prog.wp_bind, Prog.wp_set, Prog.andThen_ok, Prog.wp_bind]
  refine Prog.wp_mono (keeps_writeBlock hk (by omega)) ?_
  rintro o w' d' ⟨rfl, hk⟩
  cases o with
  | err x => exact hk
  | cut => exact hk
  | dropped => exact hk
  | ok u =>
    rw [Prog.andThen_ok]
    split
    · exact hk
    rw [Prog.wp_bind]
    refine Prog.wp_mono (keeps_writeBlock hk (by omega)) ?_
    rintro o w' d' ⟨rfl, hk⟩
    cases o with
    | err x => exact hk
    | cut => exact hk
    | dropped => exact hk
    | ok u =>
      rw [Prog.andThen_ok]
      split
      · exact hk
      rw [Prog.wp_bind, Prog.wp_set, Prog.andThen_ok, Prog.wp_bind]
      refine Prog.wp_mono (keeps_writeBlock hk (by omega)) ?_
      rintro o w' d' ⟨rfl, hk⟩
      cases o with
      | err x => exact hk
      | cut => exact hk
      | dropped => exact hk
      | ok u =>
        rw [Prog.andThen_ok, Prog.wp_bind, Prog.wp_flush]
        cases d'.fate <;> exact hk.advance

end TableWriter

/-! ### Range tombstones -/

namespace RdelWriter

open Sstable

/-- The writer is where the plan is: `s` holds the blocks closed so far and the bytes in the open one. -/
structure Follows (base : Nat) (s : RdelPlan × Nat) (w : RdelWriter) : Prop where
  base_eq : w.base = base
  blocks_eq : w.blocks = s.1.blocks
  length_buf : w.buf.length = s.2
  count_pos : 0 < w.count ↔ 0 < s.2

variable {w : RdelWriter} {s s' : RdelPlan × Nat} {n : Nat}

theorem length_encodeRdel (r : RdelEntry) : (encodeRdel r).length = rdelEntryLen r.start.length r.stop.length := by
  simp only [encodeRdel, rdelEntryLen, List.length_append, Bytes.length_leBytes]
  omega

theorem planRdelStep_ok {r : RdelEntry} (h : planRdelStep sh s r = .ok s') :
    rdelEntryLen r.start.length r.stop.length + RDEL_TRAILER ≤ sh.BLOCK ∧
      ((s.2 + rdelEntryLen r.start.length r.stop.length + RDEL_TRAILER > sh.BLOCK ∧ s'.1.blocks = s.1.blocks + 1 ∧
          s'.2 = rdelEntryLen r.start.length r.stop.length) ∨
        (s.2 + rdelEntryLen r.start.length r.stop.length + RDEL_TRAILER ≤ sh.BLOCK ∧ s'.1.blocks = s.1.blocks ∧
          s'.2 = s.2 + rdelEntryLen r.start.length r.stop.length)) := by
  obtain ⟨p, payload⟩ := s
  unfold planRdelStep at h
  dsimp only at h ⊢
  split at h
  · cases h
  · rename_i hlen
    obtain rfl := Except.ok.inj h
    refine ⟨by omega, ?_⟩
    by_cases hfull : payload + rdelEntryLen r.start.length r.stop.length + RDEL_TRAILER > sh.BLOCK
    · simp [hfull]
    · refine Or.inr ⟨by omega, ?_, ?_⟩ <;> simp [hfull]

theorem planRdel_blocks_le {rdels : List RdelEntry} (h : rdels.foldlM (planRdelStep sh) s = .ok s') :
    s.1.blocks ≤ s'.1.blocks := by
  induction rdels generalizing s with
  | nil =>
    obtain rfl := Except.ok.inj h
    exact le_rfl
  | cons r rdels ih =>
    rw [List.foldlM_cons] at h
    cases hs : planRdelStep sh s r with
    | error e => rw [hs] at h; cases h
    | ok s₁ =>
      rw [hs] at h
      have hle := ih h
      rcases planRdelStep_ok hs with ⟨-, ⟨-, hb, -⟩ | ⟨-, hb, -⟩⟩ <;> omega

theorem sealBlock_extent (h : w.base = base) (hlt : w.blocks < n) (hk : Keeps (Outside base n) d₀ d) :
    (sealBlock sh).wp (fun o w' d' => Keeps (Outside base n) d₀ d' ∧ (∀ u, o = .ok u →
      w'.base = base ∧ w'.blocks = w.blocks + 1 ∧ w'.buf = [] ∧ w'.count = 0)) w d := by
  rw [sealBlock, Prog.wp_bind, Prog.wp_get, Prog.andThen_ok]
  split
  · exact ⟨hk, fun u hu => by cases hu⟩
  split
  · exact ⟨hk, fun u hu => by cases hu⟩
  rw [Prog.wp_bind]
  cases sealRdel sh w.buf w.count with
  | error e => exact ⟨hk, fun u hu => by cases hu⟩
  | ok block =>
    rw [Prog.wp_ofExcept_ok, Prog.andThen_ok, Prog.wp_bind]
    refine Prog.wp_mono (keeps_writeBlock hk (by omega)) ?_
    rintro o w' d' ⟨rfl, hk'⟩
    cases o with
    | err x => exact ⟨hk', fun u hu => by cases hu⟩
    | cut => exact ⟨hk', fun u hu => by cases hu⟩
    | dropped => exact ⟨hk', fun u hu => by cases hu⟩
    | ok u => exact ⟨hk', fun _ _ => ⟨h, rfl, rfl, rfl⟩⟩

theorem push_extent {r : RdelEntry} (h : w.Follows base s) (hs : planRdelStep sh s r = .ok s') (hn : s'.1.blocks ≤ n)
    (hk : Keeps (Outside base n) d₀ d) :
    (push sh r).wp (fun o w' d' => Keeps (Outside base n) d₀ d' ∧ ∀ u, o = .ok u → w'.Follows base s') w d := by
  have hpos : 0 < rdelEntryLen r.start.length r.stop.length := by unfold rdelEntryLen; omega
  have hlen := h.length_buf
  have hblk := h.blocks_eq
  have hstage : ∀ (w' : RdelWriter) (d' : Device), w'.base = base → w'.blocks = s'.1.blocks →
      w'.buf.length + rdelEntryLen r.start.length r.stop.length = s'.2 → Keeps (Outside base n) d₀ d' →
      (Prog.modify fun w : RdelWriter => { w with buf := w.buf ++ encodeRdel r, count := w.count + 1 } :
        Prog RdelWriter Error Unit).wp (fun o w' d' => Keeps (Outside base n) d₀ d' ∧
          ∀ u, o = .ok u → w'.Follows base s') w' d' := by
    intro w' d' h1 h2 h3 hk'
    refine ⟨hk', fun _ _ => ⟨h1, h2, ?_, ?_⟩⟩
    · show (w'.buf ++ encodeRdel r).length = s'.2
      rw [List.length_append, length_encodeRdel, h3]
    · show 0 < w'.count + 1 ↔ 0 < s'.2
      omega
  rw [push]
  split
  · exact ⟨hk, fun u hu => by cases hu⟩
  split
  · exact ⟨hk, fun u hu => by cases hu⟩
  dsimp only
  split
  · exact ⟨hk, fun u hu => by cases hu⟩
  rw [Prog.wp_bind, Prog.wp_get, Prog.andThen_ok]
  rcases planRdelStep_ok hs with ⟨-, ⟨hfull, hb, hp⟩ | ⟨hroom, hb, hp⟩⟩
  · rw [if_pos (by omega), Prog.wp_bind]
    refine Prog.wp_mono (sealBlock_extent h.base_eq (by omega) hk) ?_
    rintro o w' d' ⟨hk', hok⟩
    cases o with
    | err x => exact ⟨hk', fun u hu => by cases hu⟩
    | cut => exact ⟨hk', fun u hu => by cases hu⟩
    | dropped => exact ⟨hk', fun u hu => by cases hu⟩
    | ok u =>
      obtain ⟨h1, h2, h3, -⟩ := hok u rfl
      exact hstage w' d' h1 (by omega) (by rw [h3]; simpa using hp.symm) hk'
  · rw [if_neg (by omega)]
    exact hstage w d h.base_eq (by omega) (by omega) hk

theorem pushRdels_extent (rdels : List RdelEntry) (h : w.Follows base s)
    (hs : rdels.foldlM (planRdelStep sh) s = .ok s') (hn : s'.1.blocks ≤ n) (hk : Keeps (Outside base n) d₀ d) :
    (pushRdels sh rdels).wp (fun o w' d' => Keeps (Outside base n) d₀ d' ∧ ∀ u, o = .ok u → w'.Follows base s') w d := by
  induction rdels generalizing w s d with
  | nil =>
    obtain rfl := Except.ok.inj hs
    exact ⟨hk, fun _ _ => h⟩
  | cons r rdels ih =>
    rw [List.foldlM_cons] at hs
    cases hr : planRdelStep sh s r with
    | error e => rw [hr] at hs; cases hs
    | ok s₁ =>
      rw [hr] at hs
      rw [pushRdels, Prog.wp_bind]
      refine Prog.wp_mono (push_extent h hr ((planRdel_blocks_le hs).trans hn) hk) ?_
      rintro o w' d' ⟨hk', hok⟩
      cases o with
      | err x => exact ⟨hk', fun u hu => by cases hu⟩
      | cut => exact ⟨hk', fun u hu => by cases hu⟩
      | dropped => exact ⟨hk', fun u hu => by cases hu⟩
      | ok u => exact ih (hok u rfl) hs hk'

end RdelWriter

open Sstable in
/-- The range-tombstone section takes the blocks that were planned for it. -/
theorem writeRdelBlocks_extent {σ : Type} {s : σ} {rdels : List RdelEntry} {plan : RdelPlan}
    (hplan : planRdelBlocks sh rdels = .ok plan) (hk : Keeps (Outside base plan.blocks) d₀ d) :
    (writeRdelBlocks sh base rdels).wp (fun o s' d' => s' = s ∧ Keeps (Outside base plan.blocks) d₀ d' ∧
      ∀ n, o = .ok n → n = plan.blocks) s d := by
  rw [planRdelBlocks] at hplan
  cases hs : rdels.foldlM (planRdelStep sh) (⟨0, none, none, 0, U64_MAX⟩, 0) with
  | error e => rw [hs] at hplan; cases hplan
  | ok s' =>
    rw [hs] at hplan
    obtain rfl := Except.ok.inj hplan
    have hnew : (RdelWriter.new base).Follows base (⟨0, none, none, 0, U64_MAX⟩, 0) :=
      ⟨rfl, rfl, rfl, by simp [RdelWriter.new]⟩
    have hle : s'.1.blocks ≤ if s'.2 > 0 then s'.1.blocks + 1 else s'.1.blocks := by split <;> omega
    rw [writeRdelBlocks, Prog.wp_bind, Prog.wp_runLocal, Prog.wp_bind]
    refine Prog.wp_mono (RdelWriter.pushRdels_extent rdels hnew hs hle hk) ?_
    rintro o w' d' ⟨hk', hok⟩
    cases o with
    | err x => exact ⟨rfl, hk', fun n hn => by cases hn⟩
    | cut => exact ⟨rfl, hk', fun n hn => by cases hn⟩
    | dropped => exact ⟨rfl, hk', fun n hn => by cases hn⟩
    | ok u =>
      have hw := hok u rfl
      rw [Prog.andThen_ok, RdelWriter.finish, Prog.wp_bind, Prog.wp_get, Prog.andThen_ok]
      split
      · rename_i hpos
        have hpos' := hw.count_pos.mp hpos
        rw [Prog.wp_bind]
        refine Prog.wp_mono (RdelWriter.sealBlock_extent hw.base_eq (by rw [hw.blocks_eq, if_pos hpos']; omega) hk') ?_
        rintro o w'' d'' ⟨hk'', hok'⟩
        cases o with
        | err x => exact ⟨rfl, hk'', fun n hn => by cases hn⟩
        | cut => exact ⟨rfl, hk'', fun n hn => by cases hn⟩
        | dropped => exact ⟨rfl, hk'', fun n hn => by cases hn⟩
        | ok u =>
          refine ⟨rfl, hk'', fun n hn => ?_⟩
          obtain rfl := Outcome.ok.inj hn
          rw [if_pos hpos', (hok' u rfl).2.1, hw.blocks_eq]
      · rename_i hzero
        have hzero' : ¬ 0 < s'.2 := fun hc => hzero (hw.count_pos.mpr hc)
        refine ⟨rfl, hk', fun n hn => ?_⟩
        obtain rfl := Outcome.ok.inj hn
        rw [if_neg hzero', hw.blocks_eq]

/-! ### The whole table -/

/-- A flush writes its table inside the run that the plan counted. -/
theorem writeFlushTable_extent {σ : Type} {s : σ} {table : MemTable} {k : Nat} {plan : Sstable.TablePlan}
    {rdelPlan : Sstable.RdelPlan} (hplan : Sstable.planRdelBlocks sh table.rdels = .ok rdelPlan) (d : Device) :
    (Db.writeFlushTable sh table base k plan rdelPlan).wp (fun _ s' d' => s' = s ∧
      Keeps (Outside base (rdelPlan.blocks + plan.dataBlocks + 3)) d d') s d := by
  have hnew : ((TableWriter.new sh base k).withBlockLimit plan.dataBlocks).InRun base plan.dataBlocks :=
    ⟨rfl, rfl, Nat.zero_le _⟩
  have hdata : ∀ {d' : Device}, Keeps (Outside base plan.dataBlocks) d d' →
      Keeps (Outside base (rdelPlan.blocks + plan.dataBlocks + 3)) d d' :=
    fun hk => hk.mono fun j hj => hj.mono le_rfl (by omega)
  rw [Db.writeFlushTable, Prog.wp_bind, Prog.wp_runLocal, Prog.wp_bind]
  refine Prog.wp_mono (TableWriter.pushAll_extent table.points true hnew (Keeps.refl _ d)) ?_
  rintro o w d₁ ⟨hw, hk⟩
  cases o with
  | err x => exact ⟨rfl, hdata hk⟩
  | cut => exact ⟨rfl, hdata hk⟩
  | dropped => exact ⟨rfl, hdata hk⟩
  | ok u =>
    rw [Prog.andThen_ok, Prog.wp_bind]
    refine Prog.wp_mono (TableWriter.sealTail_extent hw hk true) ?_
    rintro o w' d₂ ⟨hw', hk', hn⟩
    cases o with
    | err x => exact ⟨rfl, hdata hk'⟩
    | cut => exact ⟨rfl, hdata hk'⟩
    | dropped => exact ⟨rfl, hdata hk'⟩
    | ok n =>
      obtain rfl := hn n rfl
      have hle := hw'.le
      rw [Prog.andThen_ok]
      split
      · exact ⟨rfl, hdata hk'⟩
      rw [Prog.wp_bind]
      have hrun : ∀ {d' : Device}, Keeps (Outside (base + w'.dataBlocks) rdelPlan.blocks) d₂ d' →
          Keeps (Outside base (rdelPlan.blocks + plan.dataBlocks + 3)) d d' :=
        fun h => (hdata hk').trans (h.mono fun j hj => hj.mono (by omega) (by omega))
      refine Prog.wp_mono (writeRdelBlocks_extent hplan (Keeps.refl _ d₂)) ?_
      rintro o w'' d₃ ⟨rfl, hk₃, hn'⟩
      cases o with
      | err x => exact ⟨rfl, hrun hk₃⟩
      | cut => exact ⟨rfl, hrun hk₃⟩
      | dropped => exact ⟨rfl, hrun hk₃⟩
      | ok m =>
        obtain rfl := hn' m rfl
        rw [Prog.andThen_ok]
        refine Prog.wp_mono (TableWriter.finishMeta_extent hw'.base_eq (by omega) (hrun hk₃) rdelPlan.minSeq) ?_
        intro o w₄ d₄ hk₄
        cases o with
        | ok x => exact ⟨rfl, hk₄⟩
        | err x => exact ⟨rfl, hk₄⟩
        | cut => exact ⟨rfl, hk₄⟩
        | dropped => exact ⟨rfl, hk₄⟩

/-! ### Answers of the device -/

section Answers

open Prog

theorem consumes_sealCurrent (compressed : Bool) : Consumes (TableWriter.sealCurrent sh compressed) := by
  refine .bind consumes_get fun w => ?_
  split
  · exact consumes_throw _
  · refine .bind (consumes_ofExcept _) fun block => .bind (consumes_set _) fun _ => ?_
    exact .bind (consumes_writeBlock _ _ _) fun _ => .bind (consumes_ofExcept _) fun _ => consumes_modify _

theorem consumes_push (e : SstEntry) (compressed : Bool) : Consumes (TableWriter.push sh e compressed) := by
  have hstage : ∀ (elen : Nat) (sealed : PushOutcome), Consumes (do
      let w ← Prog.get
      if w.n % Sstable.RESTART_INTERVAL = 0 ∧ w.payload > U16_MAX then Prog.throw .tableTooLarge
      else
        Prog.set (w.stageEntry e elen)
        return sealed : Prog TableWriter Error PushOutcome) := by
    intro elen sealed
    refine .bind consumes_get fun w => ?_
    split
    · exact consumes_throw _
    · exact .bind (consumes_set _) fun _ => consumes_pure _
  refine .bind (consumes_ofExcept _) fun elen => ?_
  split
  · exact consumes_throw _
  refine .bind consumes_get fun w => ?_
  dsimp only
  split
  · exact .bind (consumes_pure _) fun sealed => hstage elen sealed
  split
  · exact .bind (consumes_throw _) fun sealed => hstage elen sealed
  split
  · exact .bind (consumes_throw _) fun sealed => hstage elen sealed
  refine .bind (consumes_sealCurrent compressed) fun _ => ?_
  split
  · exact .bind (consumes_pure _) fun sealed => hstage elen sealed
  · exact .bind (consumes_throw _) fun sealed => hstage elen sealed

theorem consumes_pushAll (compressed : Bool) (es : List SstEntry) : Consumes (Sstable.pushAll sh compressed es) := by
  induction es with
  | nil => exact consumes_pure _
  | cons e es ih => exact .bind (consumes_push e compressed) fun _ => ih

theorem consumes_sealTail (compressed : Bool) : Consumes (TableWriter.sealTail sh compressed) := by
  have hend : Consumes (do
      let w ← Prog.get
      return w.dataBlocks : Prog TableWriter Error Nat) := .bind consumes_get fun _ => consumes_pure _
  refine .bind consumes_get fun w => ?_
  dsimp only
  split
  · split
    · exact .bind (consumes_throw _) fun _ => hend
    · exact .bind (consumes_sealCurrent compressed) fun _ => hend
  · exact hend

theorem consumes_finishMeta (rdelBlocks rdelMinSeq : Nat) : Consumes (TableWriter.finishMeta sh rdelBlocks rdelMinSeq) := by
  refine .bind consumes_get fun w => ?_
  dsimp only
  split
  · exact consumes_throw _
  refine .bind (consumes_set _) fun _ => .bind (consumes_writeBlock _ _ _) fun _ => ?_
  split
  · exact consumes_throw _
  refine .bind (consumes_writeBlock _ _ _) fun _ => ?_
  split
  · exact consumes_throw _
  refine .bind (consumes_set _) fun _ => .bind (consumes_writeBlock _ _ _) fun _ => ?_
  exact .bind (consumes_flush _) fun _ => consumes_pure _

theorem consumes_sealBlock : Consumes (RdelWriter.sealBlock sh) := by
  refine .bind consumes_get fun w => ?_
  split
  · exact consumes_throw _
  split
  · exact consumes_throw _
  refine .bind (consumes_ofExcept _) fun _ => ?_
  exact .bind (consumes_writeBlock _ _ _) fun _ => consumes_modify _

theorem consumes_pushRdels (rs : List RdelEntry) : Consumes (Sstable.pushRdels sh rs) := by
  induction rs with
  | nil => exact consumes_pure _
  | cons r rs ih =>
    refine .bind ?_ fun _ => ih
    unfold RdelWriter.push
    split
    · exact consumes_throw _
    split
    · exact consumes_throw _
    dsimp only
    split
    · exact consumes_throw _
    refine .bind consumes_get fun w => ?_
    split
    · exact .bind consumes_sealBlock fun _ => consumes_modify _
    · exact consumes_modify _

theorem consumes_writeRdelBlocks {σ : Type} (base : Nat) (rs : List RdelEntry) :
    Consumes (Sstable.writeRdelBlocks (σ := σ) sh base rs) := by
  have hend : Consumes (do
      let w ← Prog.get
      return w.blocks : Prog RdelWriter Error Nat) := .bind consumes_get fun _ => consumes_pure _
  refine .bind (.runLocal (.bind (consumes_pushRdels rs) fun _ => ?_) _) fun _ => consumes_pure _
  refine .bind consumes_get fun w => ?_
  dsimp only
  split
  · exact .bind consumes_sealBlock fun _ => hend
  · exact hend

theorem consumes_writeFlushTable {σ : Type} (table : MemTable) (base k : Nat) (plan : Sstable.TablePlan)
    (rdelPlan : Sstable.RdelPlan) : Consumes (Db.writeFlushTable (σ := σ) sh table base k plan rdelPlan) := by
  refine .bind (.runLocal (.bind (consumes_pushAll _ _) fun _ => .bind (consumes_sealTail _) fun n => ?_) _)
    fun _ => consumes_pure _
  split
  · exact consumes_throw _
  · exact .bind (consumes_writeRdelBlocks _ _) fun _ => consumes_finishMeta _ _

end Answers

end Horton
