import Horton.Db.Commit
import Horton.Db.Recovery
import Horton.Manifest.Crash
import Horton.Sstable.Extent

/-!
# The regions of the device

The log, the table region and the copies of the manifest are apart (`Regions`, which `open` checks).  `FlushEnd` lists the
ways a flush ends: it stops before the commit, having written at most blocks of a free slot, or it runs one commit of the
manifest.
-/

namespace Horton

open BlockDev

namespace Config

/-- The fields are `u64`, the node id `u32`. -/
structure Bounded (c : Config) : Prop where
  walStart_lt : c.walStart < 2 ^ 64
  walEnd_lt : c.walEnd < 2 ^ 64
  tblEnd_lt : c.tblEnd < 2 ^ 64
  nodeId_lt : c.nodeId < 2 ^ 32

def InWal (c : Config) (j : Nat) : Prop := c.walStart ≤ j ∧ j < c.walEnd

def InTable (c : Config) (j : Nat) : Prop := c.tblStart ≤ j ∧ j < c.tblEnd

/-- Regions that share no block. -/
structure Regions (sh : Shape) (c : Config) : Prop where
  wal_lt : c.walStart < c.walEnd
  tbl_lt : c.tblStart < c.tblEnd
  wal_table : ∀ j, c.InWal j → ¬ c.InTable j
  copies_wal : ∀ j, Manifest.InCopies sh c.manifestLayout j → ¬ c.InWal j
  copies_table : ∀ j, Manifest.InCopies sh c.manifestLayout j → ¬ c.InTable j
  copies : c.manifestLayout.Disjoint (Manifest.maxBlocks sh)

variable {sh : Shape} {c : Config}

private theorem disjoint_iff {a b : Nat × Nat} : disjoint a b = true ↔ a.2 ≤ b.1 ∨ b.2 ≤ a.1 := by
  simp [disjoint]

theorem regions_of_check (h : c.checkRegions sh = .ok ()) : c.Regions sh := by
  unfold checkRegions at h
  dsimp only at h
  split at h
  · cases h
  rename_i h1
  split at h
  · cases h
  rename_i h2
  simp only [not_or, not_le, Bool.not_eq_true', Bool.not_eq_false, disjoint_iff, ge_iff_le] at h1
  obtain ⟨hw, ht, hwt⟩ := h1
  have hcopy : ∀ k < c.manifestLayout.copies,
      (disjoint (c.manifestLayout.copyStart k (Manifest.maxBlocks sh),
        c.manifestLayout.copyStart k (Manifest.maxBlocks sh) + Manifest.maxBlocks sh) (c.walStart, c.walEnd) = true ∧
      disjoint (c.manifestLayout.copyStart k (Manifest.maxBlocks sh),
        c.manifestLayout.copyStart k (Manifest.maxBlocks sh) + Manifest.maxBlocks sh) (c.tblStart, c.tblEnd) = true) ∧
      ∀ j < k, disjoint (c.manifestLayout.copyStart k (Manifest.maxBlocks sh),
        c.manifestLayout.copyStart k (Manifest.maxBlocks sh) + Manifest.maxBlocks sh)
        (c.manifestLayout.copyStart j (Manifest.maxBlocks sh),
          c.manifestLayout.copyStart j (Manifest.maxBlocks sh) + Manifest.maxBlocks sh) = true := by
    intro k hk
    have hnot : ¬ _ := fun hc => h2 (List.any_eq_true.mpr ⟨k, List.mem_range.mpr hk, hc⟩)
    simp only [Bool.or_eq_true, not_or, Bool.not_eq_true', Bool.not_eq_false, List.any_eq_true, List.mem_range,
      decide_eq_true_eq, not_exists, not_and] at hnot
    exact ⟨⟨hnot.1.1.2, hnot.1.2⟩, hnot.2⟩
  simp only [disjoint_iff] at hcopy
  refine ⟨hw, ht, fun j h1 h2 => ?_, ?_, ?_, ?_⟩
  · unfold InWal at h1
    unfold InTable at h2
    omega
  · rintro j ⟨k, hk, i, hi, rfl⟩ hj
    have := (hcopy k hk).1.1
    unfold InWal at hj
    omega
  · rintro j ⟨k, hk, i, hi, rfl⟩ hj
    have := (hcopy k hk).1.2
    unfold InTable at hj
    omega
  · intro k hk k' hk' hne i hi i' hi'
    rcases Nat.lt_or_gt_of_ne hne with hlt | hlt
    · have := (hcopy k' hk').2 k hlt
      omega
    · have := (hcopy k hk).2 k' hlt
      omega

end Config

namespace Db

variable {sh : Shape} {db : Db} {d : Device}

/-! ### How a flush ends -/

/-- The handle when the commit of a wrap ended. -/
def afterWrap (db : Db) (o : Outcome Error Unit) (m : Manifest) : Db :=
  match o with
  | .ok _ => { db with manifest := m, wal := db.wal.resetTo db.cfg.walStart }
  | _ => { db with manifest := m }

/-- The handle when the commit of a flushed table ended. -/
def afterFlush (db : Db) (o : Outcome Error Unit) (slot : Nat) (m : Manifest) : Db :=
  match o with
  | .ok _ => { db with
      manifest := m
      slots := db.slots.claim slot
      table := db.table.clear
      wal := if db.wraps then db.wal.resetTo db.cfg.walStart else db.wal }
  | _ => { db with manifest := m }

/-- What a flush has decided on when it writes its table. -/
structure FlushPlan (sh : Shape) (db : Db) (plan : Sstable.TablePlan) (rdelPlan : Sstable.RdelPlan) (slot : Nat) : Prop where
  points : Sstable.planTable sh db.table.points = .ok plan
  rdels : Sstable.planRdelBlocks sh db.table.rdels = .ok rdelPlan
  slot : db.freeSlotFor sh (rdelPlan.blocks + plan.dataBlocks + 3) = .ok slot

inductive FlushEnd (sh : Shape) (db : Db) (d : Device) : Outcome Error Unit → Db → Device → Prop
  | early {o d'} (hk : Keeps (fun j => ¬ db.cfg.InTable j) d d') (ho : o ≠ .ok ()) : FlushEnd sh db d o db d'
  | clean (hf : d.fate = .ok) (he : db.table.isEmpty = true) (hw : db.wraps = false) :
      FlushEnd sh db d (.ok ()) db d.advance
  | wrap {o m d'} (hf : d.fate = .ok) (he : db.table.isEmpty = true) (hw : db.wraps = true)
      (hc : Manifest.commitEdit sh db.cfg.manifestLayout db.wrapEdit db.manifest d.advance = (o, m, d')) :
      FlushEnd sh db d o (db.afterWrap o m) d'
  | table {o m d₁ d' plan rdelPlan slot tref e} (hf : d.fate = .ok) (hp : FlushPlan sh db plan rdelPlan slot)
      (hrun : writeFlushTable sh db.table (db.slots.slotBase slot) (Sstable.bloomK (sh.BLOOM_BYTES * 8) plan.entryCount)
        plan rdelPlan db d.advance = (.ok (), db, d₁))
      (hid : db.manifest.nextTableId + 1 ≤ U32_MAX)
      (htref : flushTref sh db.cfg.nodeId db.manifest.nextTableId (db.slots.slotBase slot)
        (rdelPlan.blocks + plan.dataBlocks + 3) plan rdelPlan = .ok tref)
      (he : db.flushEdit tref = .ok e)
      (hc : Manifest.commitEdit sh db.cfg.manifestLayout e db.manifest d₁ = (o, m, d')) :
      FlushEnd sh db d o (db.afterFlush o slot m) d'

/-- The slots lie in the table region. -/
def SlotsInside (db : Db) : Prop := ∀ slot < db.slots.slots,
  db.cfg.tblStart ≤ db.slots.slotBase slot ∧ db.slots.slotBase slot + db.slots.slotBlocks ≤ db.cfg.tblEnd

theorem freeSlotFor_ok {blocks slot : Nat} (h : db.freeSlotFor sh blocks = .ok slot) :
    blocks ≤ db.slots.slotBlocks ∧ db.slots.findFree = some slot := by
  unfold freeSlotFor at h
  split at h
  · cases h
  rename_i hle
  dsimp only at h
  split at h
  · rename_i s heq
    obtain rfl := Except.ok.inj h
    split at heq
    · exact ⟨by omega, heq⟩
    · cases heq
  · cases h

theorem findFree_lt {s : SlotMap} {slot : Nat} (h : s.findFree = some slot) : slot < s.slots := by
  have hmem := List.mem_of_find?_eq_some h
  obtain ⟨i, hi, rfl⟩ := List.mem_map.mp hmem
  have := List.mem_range.mp hi
  exact Nat.mod_lt _ (by omega)

/-- The blocks of a flush's slot are blocks of the table region. -/
theorem FlushPlan.keeps {plan : Sstable.TablePlan} {rdelPlan : Sstable.RdelPlan} {slot : Nat} {d d' : Device}
    (hp : FlushPlan sh db plan rdelPlan slot) (hin : db.SlotsInside)
    (hk : Keeps (Outside (db.slots.slotBase slot) (rdelPlan.blocks + plan.dataBlocks + 3)) d d') :
    Keeps (fun j => ¬ db.cfg.InTable j) d d' := by
  obtain ⟨hle, hfree⟩ := freeSlotFor_ok hp.slot
  have hslot := hin slot (findFree_lt hfree)
  refine hk.mono fun j hj hc => hj ⟨?_, ?_⟩ <;> omega

/-- A commit of the manifest by the handle, as the run of the manifest's own program. -/
theorem wp_onManifest {α : Type} {p : Prog Manifest Error α} {Q : Outcome Error α → Db → Device → Prop}
    (h : ∀ o m d', p db.manifest d = (o, m, d') → Q o { db with manifest := m } d') : (onManifest p).wp Q db d := by
  rw [onManifest, Prog.wp_zoom]
  exact h _ _ _ rfl

private theorem wrapWalIfFull_spec (hf : d.fate = .ok) (he : db.table.isEmpty = true) :
    (wrapWalIfFull sh).wp (FlushEnd sh db d) db d.advance := by
  rw [wrapWalIfFull, Prog.wp_bind, Prog.wp_get, Prog.andThen_ok]
  split
  · rename_i hlt
    exact .clean hf he (by simpa [wraps] using hlt)
  · rename_i hge
    rw [Prog.wp_bind]
    refine wp_onManifest fun o m d' hc => ?_
    have hend := FlushEnd.wrap hf he (by simpa [wraps] using hge) hc
    cases o with
    | ok u => exact hend
    | err x => exact hend
    | cut => exact hend
    | dropped => exact hend

/-- With nothing staged a commit of the log is a barrier. -/
private theorem wp_commit_idle (hst : StageOk sh.BLOCK db.wal []) (Q : Outcome Error Unit → Db → Device → Prop) :
    (onWal WalWriter.commit).wp Q db d ↔ (Prog.flush Error.device).wp Q db d := by
  have hlen := hst.stageLen_eq
  rw [onWal, Prog.wp_zoom, wp_commit, if_neg (by simp [hlen]), Prog.wp_flush, Prog.wp_flush]

/-- The commit at the end of a flush. -/
private theorem finishFlush_spec {plan : Sstable.TablePlan} {rdelPlan : Sstable.RdelPlan} {slot : Nat} {d₁ : Device}
    (hf : d.fate = .ok) (hp : FlushPlan sh db plan rdelPlan slot)
    (hrun : writeFlushTable sh db.table (db.slots.slotBase slot) (Sstable.bloomK (sh.BLOOM_BYTES * 8) plan.entryCount)
      plan rdelPlan db d.advance = (.ok (), db, d₁)) (hkeeps : Keeps (fun j => ¬ db.cfg.InTable j) d d₁)
    (hid : db.manifest.nextTableId + 1 ≤ U32_MAX) :
    (do
      let tref ← Prog.ofExcept (flushTref sh db.cfg.nodeId db.manifest.nextTableId (db.slots.slotBase slot)
        (rdelPlan.blocks + plan.dataBlocks + 3) plan rdelPlan)
      let edit ← Prog.ofExcept (db.flushEdit tref)
      onManifest (Manifest.commitEdit sh db.cfg.manifestLayout edit)
      Prog.modify fun db' =>
        { db' with
          slots := db'.slots.claim slot
          table := db'.table.clear
          wal := if db.wraps then db'.wal.resetTo db'.cfg.walStart else db'.wal } : Prog Db Error Unit).wp
      (FlushEnd sh db d) db d₁ := by
  rw [Prog.wp_bind]
  cases htref : flushTref sh db.cfg.nodeId db.manifest.nextTableId (db.slots.slotBase slot)
    (rdelPlan.blocks + plan.dataBlocks + 3) plan rdelPlan with
  | error x => exact .early hkeeps (by simp)
  | ok tref =>
    rw [Prog.wp_ofExcept_ok, Prog.andThen_ok, Prog.wp_bind]
    cases he : db.flushEdit tref with
    | error x => exact .early hkeeps (by simp)
    | ok e =>
      rw [Prog.wp_ofExcept_ok, Prog.andThen_ok, Prog.wp_bind]
      refine wp_onManifest fun o m d' hc => ?_
      have hend := FlushEnd.table hf hp hrun hid htref he hc
      cases o with
      | ok u => exact hend
      | err x => exact hend
      | cut => exact hend
      | dropped => exact hend

/-- What a flush does behind its commit of the log. -/
def flushTail (sh : Shape) : Prog Db Error Unit := do
  let db ← Prog.get
  if db.table.isEmpty then wrapWalIfFull sh
  else if db.manifest.l0.length ≥ sh.TABLES then Prog.throw (db.noRoom sh)
  else
    let plan ← Prog.ofExcept (Sstable.planTable sh db.table.points)
    let rdelPlan ← Prog.ofExcept (Sstable.planRdelBlocks sh db.table.rdels)
    let k := Sstable.bloomK (sh.BLOOM_BYTES * 8) plan.entryCount
    let total := rdelPlan.blocks + plan.dataBlocks + 3
    let slot ← Prog.ofExcept (db.freeSlotFor sh total)
    let base := db.slots.slotBase slot
    writeFlushTable sh db.table base k plan rdelPlan
    if db.manifest.nextTableId + 1 > U32_MAX then Prog.throw .counterExhausted
    else
      let tref ← Prog.ofExcept (flushTref sh db.cfg.nodeId db.manifest.nextTableId base total plan rdelPlan)
      let edit ← Prog.ofExcept (db.flushEdit tref)
      onManifest (Manifest.commitEdit sh db.cfg.manifestLayout edit)
      Prog.modify fun db' =>
        { db' with
          slots := db'.slots.claim slot
          table := db'.table.clear
          wal := if db.wraps then db'.wal.resetTo db'.cfg.walStart else db'.wal }

theorem flush_eq (sh : Shape) : flush sh = (do ensureOpen; onWal WalWriter.commit; flushTail sh) := rfl

/-- Behind a barrier that returned, a flush ends in one of the listed ways. -/
theorem flushTail_spec (hf : d.fate = .ok) (hin : db.SlotsInside) :
    (flushTail sh).wp (FlushEnd sh db d) db d.advance := by
  have hadv : Keeps (fun j => ¬ db.cfg.InTable j) d d.advance := (readsOnly_advance d).keeps _
  rw [flushTail, Prog.wp_bind, Prog.wp_get, Prog.andThen_ok]
  split
  · rename_i he
    exact wrapWalIfFull_spec hf he
  split
  · rw [Prog.wp_throw]
    exact .early hadv (by simp)
  rw [Prog.wp_bind]
  cases hpoints : Sstable.planTable sh db.table.points with
  | error x => exact .early hadv (by simp)
  | ok plan =>
    rw [Prog.wp_ofExcept_ok, Prog.andThen_ok, Prog.wp_bind]
    cases hrdels : Sstable.planRdelBlocks sh db.table.rdels with
    | error x => exact .early hadv (by simp)
    | ok rdelPlan =>
      rw [Prog.wp_ofExcept_ok, Prog.andThen_ok, Prog.wp_bind]
      cases hslot : db.freeSlotFor sh (rdelPlan.blocks + plan.dataBlocks + 3) with
      | error x => exact .early hadv (by simp)
      | ok slot =>
        have hplan : FlushPlan sh db plan rdelPlan slot := ⟨hpoints, hrdels, hslot⟩
        rw [Prog.wp_ofExcept_ok, Prog.andThen_ok, Prog.wp_bind]
        refine Prog.wp_of_run fun o db₁ d₁ hrun => ?_
        obtain ⟨hdb, hk⟩ := Prog.wp_run (writeFlushTable_extent hrdels d.advance) hrun
        rw [hdb] at hrun ⊢
        have hkeeps := hadv.trans (hplan.keeps hin hk)
        cases o with
        | err x => exact .early hkeeps (by simp)
        | cut => exact .early hkeeps (by simp)
        | dropped => exact .early hkeeps (by simp)
        | ok u =>
          rw [Prog.andThen_ok]
          split
          · rw [Prog.wp_throw]
            exact .early hkeeps (by simp)
          · rename_i hid
            exact finishFlush_spec hf hplan hrun hkeeps (by omega)

theorem flush_spec (hopen : db.opened = true) (hst : StageOk sh.BLOCK db.wal []) (hin : db.SlotsInside) :
    (flush sh).wp (FlushEnd sh db d) db d := by
  have hadv : Keeps (fun j => ¬ db.cfg.InTable j) d d.advance := (readsOnly_advance d).keeps _
  rw [flush_eq, Prog.wp_bind, wp_ensureOpen, if_pos hopen, Prog.andThen_ok, Prog.wp_bind, wp_commit_idle hst, Prog.wp_flush]
  cases hf : d.fate with
  | fail k => exact .early hadv (by simp)
  | cut k => exact .early hadv (by simp)
  | drop k => exact .early hadv (by simp)
  | ok => exact flushTail_spec hf hin

/-! ### The slots of an opened handle -/

theorem slotsInside_of_opened {db' : Db} (h : Opened sh db d db') (hcfg : db'.cfg = db.cfg) : db'.SlotsInside := by
  obtain ⟨s, hs, hre⟩ := h.slots
  obtain ⟨h1, h2, h3⟩ := sameLayout_rebuildSlots hre
  unfold SlotMap.layout at hs
  split at hs
  · cases hs
  rename_i hne
  dsimp only at hs
  split at hs
  · cases hs
  obtain rfl := Option.some.inj hs
  intro slot hslot
  rw [hcfg, SlotMap.slotBase, h1, h2]
  rw [h3] at hslot
  dsimp only at hslot ⊢
  have hmul : (slot + 1) * ((db.cfg.tblEnd - db.cfg.tblStart) / Config.SLOTS sh) ≤ db.cfg.tblEnd - db.cfg.tblStart :=
    (Nat.mul_le_mul_right _ hslot).trans (Nat.mul_div_le _ _)
  rw [Nat.succ_mul] at hmul
  omega

/-! ### The edits of a flush fit their fields -/

open Sstable in
private theorem planTable_bounds {es : List SstEntry} {plan : TablePlan} (h : planTable sh es = .ok plan)
    (hseq : ∀ e ∈ es, e.seq < 2 ^ 64) : plan.firstKey.length ≤ sh.KEY_MAX ∧ plan.lastKey.length ≤ sh.KEY_MAX ∧
      plan.maxSeq < 2 ^ 64 ∧ plan.minSeq ≤ U64_MAX := by
  have hfold : ∀ (es : List SstEntry) (s s' : PlanState), es.foldlM (PlanState.step sh) s = .ok s' →
      (∀ e ∈ es, e.seq < 2 ^ 64) → s.maxSeq < 2 ^ 64 → s.minSeq ≤ U64_MAX → s'.maxSeq < 2 ^ 64 ∧ s'.minSeq ≤ U64_MAX := by
    intro es
    induction es with
    | nil =>
      intro s s' hs _ h1 h2
      obtain rfl := Except.ok.inj hs
      exact ⟨h1, h2⟩
    | cons e es ih =>
      intro s s' hs he h1 h2
      rw [List.foldlM_cons, PlanState.step] at hs
      cases hlen : entrySizes e with
      | error x => rw [hlen] at hs; cases hs
      | ok elen =>
        cases hroom : s.room sh elen with
        | error x =>
          rw [hlen] at hs
          change (s.room sh elen >>= _) >>= _ = _ at hs
          rw [hroom] at hs
          cases hs
        | ok s₁ =>
          rw [hlen] at hs
          change (s.room sh elen >>= _) >>= _ = _ at hs
          rw [hroom] at hs
          have hsame : s₁.maxSeq = s.maxSeq ∧ s₁.minSeq = s.minSeq := by
            unfold PlanState.room at hroom
            split_ifs at hroom <;> obtain rfl := Except.ok.inj hroom <;> exact ⟨rfl, rfl⟩
          refine ih _ s' hs (fun x hx => he x (by simp [hx])) ?_ ?_
          · show max s₁.maxSeq e.seq < 2 ^ 64
            exact max_lt (hsame.1 ▸ h1) (he e (by simp))
          · show min s₁.minSeq e.seq ≤ U64_MAX
            exact (min_le_left _ _).trans (hsame.2 ▸ h2)
  have hbound : ∀ {b : Option Bytes} {k : Bytes}, planBound sh b = .ok k → k.length ≤ sh.KEY_MAX := by
    intro b k hb
    unfold planBound at hb
    split at hb
    · obtain rfl := Except.ok.inj hb
      exact Nat.zero_le _
    · split at hb
      · cases hb
      · obtain rfl := Except.ok.inj hb
        omega
  rw [planTable] at h
  cases hs : es.foldlM (PlanState.step sh) .new with
  | error x => rw [hs] at h; cases h
  | ok s =>
    cases h1 : planBound sh s.first with
    | error x => simp only [hs, h1, bind, Except.bind] at h; cases h
    | ok k₁ =>
      cases h2 : planBound sh s.last with
      | error x => simp only [hs, h1, h2, bind, Except.bind] at h; cases h
      | ok k₂ =>
        simp only [hs, h1, h2, bind, Except.bind] at h
        obtain rfl := Except.ok.inj h
        obtain ⟨h3, h4⟩ := hfold es .new s hs hseq (by simp [PlanState.new]) le_rfl
        exact ⟨hbound h1, hbound h2, h3, h4⟩

open Sstable in
private theorem planRdelBlocks_bounds {rs : List RdelEntry} {plan : RdelPlan} (h : planRdelBlocks sh rs = .ok plan)
    (hseq : ∀ r ∈ rs, r.seq < 2 ^ 64) : plan.maxSeq < 2 ^ 64 := by
  have hfold : ∀ (rs : List RdelEntry) (s s' : RdelPlan × Nat), rs.foldlM (planRdelStep sh) s = .ok s' →
      (∀ r ∈ rs, r.seq < 2 ^ 64) → s.1.maxSeq < 2 ^ 64 → s'.1.maxSeq < 2 ^ 64 := by
    intro rs
    induction rs with
    | nil =>
      intro s s' hs _ h1
      obtain rfl := Except.ok.inj hs
      exact h1
    | cons r rs ih =>
      intro s s' hs hr h1
      rw [List.foldlM_cons] at hs
      cases hstep : planRdelStep sh s r with
      | error x => rw [hstep] at hs; cases hs
      | ok s₁ =>
        rw [hstep] at hs
        refine ih s₁ s' hs (fun x hx => hr x (by simp [hx])) ?_
        unfold planRdelStep at hstep
        dsimp only at hstep
        split at hstep
        · cases hstep
        · obtain rfl := Except.ok.inj hstep
          exact max_lt h1 (hr r (by simp))
  rw [planRdelBlocks] at h
  cases hs : rs.foldlM (planRdelStep sh) (⟨0, none, none, 0, U64_MAX⟩, 0) with
  | error x => rw [hs] at h; cases h
  | ok s =>
    rw [hs] at h
    obtain rfl := Except.ok.inj h
    exact hfold rs _ s hs hseq (by simp)

private theorem length_rdelBound (b : Option Bytes) : (rdelBound sh b).length ≤ sh.KEY_MAX := by
  unfold rdelBound
  cases b with
  | none => exact Nat.zero_le _
  | some k =>
    by_cases hk : k.length ≤ sh.KEY_MAX <;> simp [Option.filter, hk]

private theorem length_min {a b : Bytes} {n : Nat} (ha : a.length ≤ n) (hb : b.length ≤ n) :
    (KeyBound.min a b).length ≤ n := by
  unfold KeyBound.min
  split_ifs <;> assumption

private theorem length_max {a b : Bytes} {n : Nat} (ha : a.length ≤ n) (hb : b.length ≤ n) :
    (KeyBound.max a b).length ≤ n := by
  unfold KeyBound.max
  split_ifs <;> assumption

/-- Numbers and positions of a handle that fit their fields. -/
structure Sized (db : Db) : Prop where
  cfg : db.cfg.Bounded
  nextBlock : db.wal.nextBlock < 2 ^ 64
  nextSeq : db.nextSeq < 2 ^ 64
  entries : ∀ e ∈ db.table.iter, e.seq < 2 ^ 64

theorem wrapEdit_wf (h : db.Sized) : db.wrapEdit.WF sh := by
  refine ⟨?_, ?_, by show 0 < 2 ^ 64; omega, by show 0 < 2 ^ 32; omega, by show 0 < 2 ^ 64; omega, Nat.zero_le _, ?_, ?_⟩
  · intro head hh
    obtain rfl := Option.some.inj hh
    exact h.cfg.walStart_lt
  · show max 0 db.nextSeq < 2 ^ 64
    have := h.nextSeq
    omega
  · intro a ha
    cases ha
  · intro s hs
    cases hs

theorem flushTref_wf {plan : Sstable.TablePlan} {rdelPlan : Sstable.RdelPlan} {slot : Nat} {tref : TableRef} (h : db.Sized)
    (hp : FlushPlan sh db plan rdelPlan slot) (hin : db.SlotsInside) (hid : db.manifest.nextTableId + 1 ≤ U32_MAX)
    (htref : flushTref sh db.cfg.nodeId db.manifest.nextTableId (db.slots.slotBase slot)
      (rdelPlan.blocks + plan.dataBlocks + 3) plan rdelPlan = .ok tref) : tref.WF sh := by
  have hslot := hin slot (findFree_lt (freeSlotFor_ok hp.slot).2)
  have htbl := h.cfg.tblEnd_lt
  obtain ⟨h1, h2, h3, h4⟩ := planTable_bounds hp.points (by
    intro e he
    obtain ⟨x, hx, rfl⟩ := List.mem_map.mp he
    exact h.entries x (List.mem_of_mem_filter hx))
  have h5 := planRdelBlocks_bounds hp.rdels (by
    intro r hr
    obtain ⟨x, hx, hsome⟩ := List.mem_filterMap.mp hr
    split at hsome
    · obtain rfl := Option.some.inj hsome
      exact h.entries x hx
    · cases hsome)
  unfold flushTref at htref
  split at htref
  · cases htref
  split at htref
  · cases htref
  rename_i htotal hcount
  obtain rfl := Except.ok.inj htref
  rw [U32_MAX] at htotal hcount hid
  rw [U64_MAX] at h4
  refine ⟨by show db.manifest.nextTableId < 2 ^ 32; omega, by show db.slots.slotBase slot < 2 ^ 64; omega,
    by show rdelPlan.blocks + plan.dataBlocks + 3 < 2 ^ 32; omega, length_min h1 (length_rdelBound _),
    length_max h2 (length_rdelBound _), max_lt h3 h5, ?_, by show plan.entryCount < 2 ^ 32; omega,
    by show rdelPlan.blocks < 2 ^ 32; omega, h.cfg.nodeId_lt, by show 0 < 2 ^ 64; omega⟩
  show min plan.minSeq rdelPlan.minSeq < 2 ^ 64
  omega

theorem flushEdit_ok {tref : TableRef} {e : ManifestEdit} (he : db.flushEdit tref = .ok e) :
    e = { ManifestEdit.EMPTY with
      nextTableId := max 0 (db.manifest.nextTableId + 1)
      added := some (0, tref)
      walHead := some (if db.wraps then db.cfg.walStart else db.wal.nextBlock)
      flushed := max 0 db.nextSeq } := (Except.ok.inj he).symm

theorem flushEdit_wf {tref : TableRef} {e : ManifestEdit} (h : db.Sized) (ht : tref.WF sh)
    (hid : db.manifest.nextTableId + 1 ≤ U32_MAX) (he : db.flushEdit tref = .ok e) : e.WF sh := by
  obtain rfl := flushEdit_ok he
  rw [U32_MAX] at hid
  have hseq := h.nextSeq
  refine ⟨?_, by show max 0 db.nextSeq < 2 ^ 64; omega, by show 0 < 2 ^ 64; omega,
    by show max 0 (db.manifest.nextTableId + 1) < 2 ^ 32; omega, by show 0 < 2 ^ 64; omega, Nat.zero_le _, ?_, ?_⟩
  · intro head hh
    obtain rfl := Option.some.inj hh
    split
    · exact h.cfg.walStart_lt
    · exact h.nextBlock
  · intro a ha
    obtain rfl := Option.some.inj ha
    exact ht
  · intro s hs
    cases hs

end Db

end Horton
