import Horton.Store.Live

/-!
# Flushes of the stored log

A flush writes its table into a free slot, where no table of the manifest lies, and commits it.  What the WAL kept is in the
table from the commit on, and nowhere else before; so the stored log is the same wherever the flush ends.
-/

namespace Horton

open BlockDev GroupLog Sstable

variable {sh : Shape} {c : Config} {db db' : Db} {d d' : Device} {conts : Contents} {old kept log : List Record}

/-- Contents with those of one more table. -/
def Contents.put (c : Contents) (id : Nat) (points : List SstEntry) (rdels : List RdelEntry) : Contents :=
  ⟨fun i => if i = id then points else c.points i, fun i => if i = id then rdels else c.rdels i⟩

namespace Db

/-- A block of the slot that a new table would get. -/
def InFreeSlot (db : Db) (j : Nat) : Prop :=
  ∃ slot, db.slots.findFree = some slot ∧ db.slots.slotBase slot ≤ j ∧ j < db.slots.slotBase slot + db.slots.slotBlocks

/-- How a flush ends: in front of its commit, having written to a free slot at most, or with the commit. -/
inductive FlushStep (sh : Shape) (db : Db) (d : Device) : Outcome Error Unit → Db → Device → Prop
  | still {o d'} (hk : Keeps (fun j => ¬db.InFreeSlot j) d d') : FlushStep sh db d o db d'
  | wrap {o m d'} (he : db.table.isEmpty = true)
      (hc : Manifest.commitEdit sh db.cfg.manifestLayout db.wrapEdit db.manifest d.advance = (o, m, d')) :
      FlushStep sh db d o (db.afterWrap o m) d'
  | table {o m d₁ d' plan rdelPlan slot tref e} (hp : FlushPlan sh db plan rdelPlan slot)
      (hrun : writeFlushTable sh db.table (db.slots.slotBase slot) (bloomK (sh.BLOOM_BYTES * 8) plan.entryCount)
        plan rdelPlan db d.advance = (.ok (), db, d₁))
      (hk : Keeps (fun j => ¬db.InFreeSlot j) d d₁) (hid : db.manifest.nextTableId + 1 ≤ U32_MAX)
      (htref : flushTref sh db.cfg.nodeId db.manifest.nextTableId (db.slots.slotBase slot)
        (rdelPlan.blocks + plan.dataBlocks + 3) plan rdelPlan = .ok tref)
      (he : db.flushEdit tref = .ok e)
      (hc : Manifest.commitEdit sh db.cfg.manifestLayout e db.manifest d₁ = (o, m, d')) :
      FlushStep sh db d o (db.afterFlush o slot m) d'

private theorem flushTail_step : (flushTail sh).wp (FlushStep sh db d) db d.advance := by
  have hadv : Keeps (fun j => ¬db.InFreeSlot j) d d.advance := (readsOnly_advance d).keeps _
  rw [flushTail, Prog.wp_bind, Prog.wp_get, Prog.andThen_ok]
  split
  · rename_i he
    rw [wrapWalIfFull, Prog.wp_bind, Prog.wp_get, Prog.andThen_ok]
    split
    · exact .still hadv
    · rw [Prog.wp_bind]
      refine wp_onManifest fun o m d' hc => ?_
      have hend := FlushStep.wrap he hc
      cases o with
      | ok u => exact hend
      | err x => exact hend
      | cut => exact hend
      | dropped => exact hend
  split
  · exact .still hadv
  rw [Prog.wp_bind]
  cases hpoints : planTable sh db.table.points with
  | error x => exact .still hadv
  | ok plan =>
    rw [Prog.wp_ofExcept_ok, Prog.andThen_ok, Prog.wp_bind]
    cases hrdels : planRdelBlocks sh db.table.rdels with
    | error x => exact .still hadv
    | ok rdelPlan =>
      rw [Prog.wp_ofExcept_ok, Prog.andThen_ok, Prog.wp_bind]
      cases hslot : db.freeSlotFor sh (rdelPlan.blocks + plan.dataBlocks + 3) with
      | error x => exact .still hadv
      | ok slot =>
        have hplan : FlushPlan sh db plan rdelPlan slot := ⟨hpoints, hrdels, hslot⟩
        rw [Prog.wp_ofExcept_ok, Prog.andThen_ok, Prog.wp_bind]
        refine Prog.wp_of_run fun o db₁ d₁ hrun => ?_
        obtain ⟨hdb, hk⟩ := Prog.wp_run (writeFlushTable_extent hrdels d.advance) hrun
        rw [hdb] at hrun ⊢
        have hkeeps : Keeps (fun j => ¬db.InFreeSlot j) d d₁ := by
          obtain ⟨hle, hfree⟩ := freeSlotFor_ok hslot
          refine hadv.trans (hk.mono fun j hj hin => hj ⟨slot, hfree, hin.1, ?_⟩)
          have := hin.2
          omega
        cases o with
        | err x => exact .still hkeeps
        | cut => exact .still hkeeps
        | dropped => exact .still hkeeps
        | ok u =>
          rw [Prog.andThen_ok]
          split
          · exact .still hkeeps
          rw [Prog.wp_bind]
          cases htref : flushTref sh db.cfg.nodeId db.manifest.nextTableId (db.slots.slotBase slot)
            (rdelPlan.blocks + plan.dataBlocks + 3) plan rdelPlan with
          | error x => exact .still hkeeps
          | ok tref =>
            rw [Prog.wp_ofExcept_ok, Prog.andThen_ok, Prog.wp_bind]
            cases he : db.flushEdit tref with
            | error x => exact .still hkeeps
            | ok e =>
              rw [Prog.wp_ofExcept_ok, Prog.andThen_ok, Prog.wp_bind]
              refine wp_onManifest fun o m d' hc => ?_
              have hend := FlushStep.table hplan hrun hkeeps (by omega) htref he hc
              cases o with
              | ok u => exact hend
              | err x => exact hend
              | cut => exact hend
              | dropped => exact hend

theorem flush_step (hopen : db.opened = true) (hst : StageOk sh.BLOCK db.wal []) :
    (flush sh).wp (FlushStep sh db d) db d := by
  have hadv : Keeps (fun j => ¬db.InFreeSlot j) d d.advance := (readsOnly_advance d).keeps _
  have hlen := hst.stageLen_eq
  rw [flush_eq, Prog.wp_bind, wp_ensureOpen, if_pos hopen, Prog.andThen_ok, Prog.wp_bind, onWal, Prog.wp_zoom, wp_commit,
    if_neg (by simp [hlen]), Prog.wp_flush]
  cases d.fate with
  | fail k => exact .still hadv
  | cut k => exact .still hadv
  | drop k => exact .still hadv
  | ok => exact flushTail_step

end Db

namespace Live

/-- Nothing of the stored log lies in a free slot. -/
theorem uses_free (h : Live sh c db d conts old kept) (hh : HandleOk sh c db) {j : Nat}
    (hj : Stored.Uses sh c db.manifest j) : ¬db.InFreeSlot j := by
  rintro ⟨slot, hfree, hge, hlt⟩
  have hslot := h.inside slot (Db.findFree_lt hfree)
  rw [hh.cfg] at hslot
  have hin : c.InTable j := ⟨by omega, by omega⟩
  rcases hj with hj | hj | ⟨t, ht, hj⟩
  · exact h.regions.copies_table j hj hin
  · exact h.regions.wal_table j hj hin
  · exact h.places.outside (h.marks.free hfree) ⟨hge, hlt⟩ t ht hj

/-- How the commit of a flush ends. -/
theorem commit (h : Live sh c db d conts old kept) {e : ManifestEdit} (he : e.WF sh) {head : Nat}
    (hm : Stored.Moves c db.manifest db.nextSeq head e) (hcuts : Sys.OnlyCuts d.fates) (hnone : e.added = none → kept = [])
    (hadd : ∀ x ∈ e.added, conts.On sh d.blocks x.2 ∧ conts.Within x.2 ∧ x.2.nodeId = c.nodeId ∧
      (conts.part x.2.id).Perm (kept.map Record.entry) ∧ (∀ j, x.2.Has j → c.InTable j) ∧
      x.2.maxSeq ≤ lastSeq (old ++ kept) ∧ ∀ s, SlotMap.layout c.tblStart c.tblEnd (Config.SLOTS sh)
        (Config.MIN_SLOT_BLOCKS sh) = some s →
        s.Places (x.2 :: db.manifest.tables))
    {o : Outcome Error Unit} {m : Manifest}
    (hc : Manifest.commitEdit sh c.manifestLayout e db.manifest d = (o, m, d')) :
    match o with
    | .ok _ => m = db.manifest.view sh e ∧ Stored sh c d' (db.manifest.view sh e) head db.nextSeq conts (old ++ kept) []
    | .err _ => m = db.manifest ∧ d' = d
    | .cut => Stores sh c d' (old ++ kept)
    | .dropped => False := by
  have hst : db.manifest.StampsOne e := by
    intro x hx
    rw [hm.stamped] at hx
    cases hx
  have hord : db.manifest.InOrder e := fun x hx hlevel => absurd (hm.level x hx) hlevel.ne'
  rcases Prog.wp_run (h.stored.holds.commit_spec h.regions.copies he hst hord) hc with ⟨rfl, rfl, x, rfl⟩ | ⟨hkeep, hend⟩
  · exact ⟨rfl, rfl⟩
  · have hview : Manifest.Holds sh c.manifestLayout d' (db.manifest.view sh e) →
        Stored sh c d' (db.manifest.view sh e) head db.nextSeq conts (old ++ kept) [] := fun hholds =>
      h.stored.edit hm hholds hkeep h.regions h.newest hnone hadd
    cases o with
    | ok u => exact ⟨hend.1, hview hend.2⟩
    | err x =>
      obtain ⟨k, hf⟩ := hend
      exact absurd hf (hcuts.not_fail k)
    | dropped =>
      obtain ⟨k, hf⟩ := hend
      exact hcuts.not_drop k hf
    | cut =>
      rcases hend with hholds | hholds
      · refine ⟨db.manifest, db.wal.nextBlock, db.nextSeq, conts, old, kept, ?_, rfl⟩
        have hk : Keeps (fun j => c.InWal j ∨ ∃ t ∈ db.manifest.tables, t.Has j) d d' := by
          refine hkeep.mono fun j hj hc => ?_
          rcases hj with hj | ⟨t, ht, hj⟩
          · exact h.regions.copies_wal j hc hj
          · exact h.regions.copies_table j hc (h.stored.inside t ht j hj)
        refine { h.stored with holds := hholds, region := ?_, tables := ?_ }
        · exact h.stored.region.keeps (hk.mono fun j hj => Or.inl hj)
        · intro t ht
          obtain ⟨hon, hrest⟩ := h.stored.tables t ht
          exact ⟨hon.keeps fun j hj => hk.blocks j (Or.inr ⟨t, ht, hj⟩), hrest⟩
      · exact ⟨_, _, _, conts, old ++ kept, [], hview hholds, (List.append_nil _).symm⟩

/-- A memtable without entries is the replay of nothing. -/
theorem kept_nil (h : Live sh c db d conts old kept) (he : db.table.isEmpty = true) : kept = [] := by
  have hlen := Db.len_replayAll h.table
  have hzero : db.table.len = 0 := by simpa [MemTable.isEmpty] using he
  exact List.length_eq_zero_iff.mp (by omega)

/-- The handle behind a refused commit. -/
theorem refused (h : Live sh c db d conts old kept) (hh : HandleOk sh c db) :
    Serves sh c { db with manifest := db.manifest } d (old ++ kept) :=
  ⟨hh, conts, old, kept, h, rfl⟩

/-- A log that is full and has nothing left to keep starts again. -/
theorem wrap (hw : c.Works sh) (h : Live sh c db d conts old kept) (hh : HandleOk sh c db) (hcuts : Sys.OnlyCuts d.fates)
    (he : db.table.isEmpty = true) {o : Outcome Error Unit} {m : Manifest}
    (hc : Manifest.commitEdit sh c.manifestLayout db.wrapEdit db.manifest d = (o, m, d')) :
    Leaves sh c (old ++ kept) o (db.afterWrap o m) d' := by
  have hstart := h.regions.wal_lt
  have hm : Stored.Moves c db.manifest db.nextSeq c.walStart db.wrapEdit := by
    constructor
    · rfl
    · rfl
    · rfl
    · intro x hx
      cases hx
    · exact congrArg (fun c : Config => some c.walStart) hh.cfg
    · exact le_rfl
    · exact hstart.le
    · exact Nat.zero_max _
    · rfl
    · intro x hx
      cases hx
  have hend := h.commit (Db.wrapEdit_wf (h.sized hw.bounded hh)) hm hcuts (fun _ => h.kept_nil he)
    (fun x hx => by cases hx) hc
  cases o with
  | cut => exact hend
  | dropped => exact hend.elim
  | err x =>
    obtain ⟨rfl, rfl⟩ := hend
    exact h.refused hh
  | ok u =>
    obtain ⟨rfl, hs⟩ := hend
    have hperm := Manifest.tables_view h.stored.holds.wf.length_levels hm.removed hm.narrowed hm.stamped hm.level
    refine ⟨⟨hh.cfg, hh.walStart, hh.walEnd, hh.stage⟩, conts, old ++ kept, [], ?_, (List.append_nil _).symm⟩
    refine ⟨?_, ?_, h.stage.resetTo _, h.nextSeq, ?_, h.inside, h.layout, h.marks.perm hperm.symm⟩
    · show Stored sh c d' (db.manifest.view sh db.wrapEdit) db.cfg.walStart db.nextSeq conts (old ++ kept) []
      rw [hh.cfg]
      exact hs
    · have ht := h.table
      rw [h.kept_nil he] at ht
      exact ht
    · rw [List.append_nil]
      exact h.newest

/-- The memtable's sections hold what the WAL keeps. -/
theorem sections (h : Live sh c db d conts old kept) :
    (db.table.points.map SstEntry.entry ++ db.table.rdels.map RdelEntry.entry).Perm (kept.map Record.entry) := by
  have hperm := h.memtable.1.perm
  refine (MemTable.sections_perm fun e he hr => ?_).trans hperm
  obtain ⟨r, -, rfl⟩ := List.mem_map.mp (hperm.mem_iff.mp he)
  unfold Record.entry at hr ⊢
  cases hop : r.op with
  | rangeDelete => exact ⟨rfl, rfl⟩
  | put => simp [hop] at hr
  | delete => simp [hop] at hr
  | putTtl => simp [hop] at hr

/-- A flush that wrote its table, at its commit. -/
theorem commitTable (hw : c.Works sh) (hsh : sh.RdelCounts) (h : Live sh c db d conts old kept) (hh : HandleOk sh c db)
    (hcuts : Sys.OnlyCuts d.fates) {d₁ : Device} {plan : TablePlan} {rdelPlan : RdelPlan} {slot : Nat} {tref : TableRef}
    {e : ManifestEdit} (hp : Db.FlushPlan sh db plan rdelPlan slot)
    (hrun : Db.writeFlushTable sh db.table (db.slots.slotBase slot) (bloomK (sh.BLOOM_BYTES * 8) plan.entryCount) plan rdelPlan
      db d.advance = (.ok (), db, d₁))
    (hk : Keeps (fun j => ¬db.InFreeSlot j) d d₁) (hid : db.manifest.nextTableId + 1 ≤ U32_MAX)
    (htref : Db.flushTref sh db.cfg.nodeId db.manifest.nextTableId (db.slots.slotBase slot)
      (rdelPlan.blocks + plan.dataBlocks + 3) plan rdelPlan = .ok tref)
    (he : db.flushEdit tref = .ok e) {o : Outcome Error Unit} {m : Manifest}
    (hc : Manifest.commitEdit sh c.manifestLayout e db.manifest d₁ = (o, m, d')) :
    Leaves sh c (old ++ kept) o (db.afterFlush o slot m) d' := by
  have hsized := h.sized hw.bounded hh
  obtain ⟨hrefines, hbounded⟩ := h.memtable
  obtain ⟨hle, hfree⟩ := Db.freeSlotFor_ok hp.slot
  have hlt := Db.findFree_lt hfree
  have hslot := h.inside slot hlt
  have htbl := hsized.cfg.tblEnd_lt
  have hu : U64_MAX = 2 ^ 64 - 1 := rfl
  have hedit := Db.flushEdit_ok he
  have href := Db.flushTref_ok htref
  have hfirst : tref.firstBlock = db.slots.slotBase slot := by rw [href]
  have hcount : tref.blockCount = rdelPlan.blocks + plan.dataBlocks + 3 := by rw [href]
  have hnode : tref.nodeId = c.nodeId := by rw [href, ← hh.cfg]
  have htid : tref.id = db.manifest.nextTableId := by rw [href]
  have hof : db.slots.slotOfTable tref = some slot := by
    unfold SlotMap.slotOfTable
    rw [hfirst, hcount]
    exact SlotMap.slotOf_slotBase hlt (by omega) hle (by omega)
  -- The log with the contents of the new table beside those of the others.
  have hpoints : (conts.put tref.id db.table.points db.table.rdels).points tref.id = db.table.points := if_pos rfl
  have hrdels : (conts.put tref.id db.table.points db.table.rdels).rdels tref.id = db.table.rdels := if_pos rfl
  have h₁ : Live sh c db d₁ (conts.put tref.id db.table.points db.table.rdels) old kept := by
    have hkeep := h.keeps (hk.mono fun j hj => h.uses_free hh hj)
    refine { hkeep with stored := hkeep.stored.contents fun t ht => ?_ }
    have hne : t.id ≠ tref.id := by
      have := h.stored.ids_lt t ht
      omega
    exact ⟨if_neg hne, if_neg hne⟩
  have hm : Stored.Moves c db.manifest db.nextSeq (if db.wraps then c.walStart else db.wal.nextBlock) e := by
    have hge := h.stored.region.start_le.trans h.stored.region.head_le
    rw [hedit]
    constructor
    · rfl
    · rfl
    · rfl
    · intro x hx
      obtain rfl := Option.some.inj hx
      rfl
    · show some (if db.wraps then db.cfg.walStart else db.wal.nextBlock) = _
      rw [hh.cfg]
    · split
      · exact le_rfl
      · exact hge
    · split
      · exact h.regions.wal_lt.le
      · exact h.stored.region.next_le
    · exact Nat.zero_max _
    · rfl
    · intro x hx
      obtain rfl := Option.some.inj hx
      exact ⟨htid, Nat.zero_max _⟩
  have hadd : ∀ x ∈ e.added, (conts.put tref.id db.table.points db.table.rdels).On sh d₁.blocks x.2 ∧
      (conts.put tref.id db.table.points db.table.rdels).Within x.2 ∧ x.2.nodeId = c.nodeId ∧
      ((conts.put tref.id db.table.points db.table.rdels).part x.2.id).Perm (kept.map Record.entry) ∧
      (∀ j, x.2.Has j → c.InTable j) ∧ x.2.maxSeq ≤ lastSeq (old ++ kept) ∧
      ∀ s, SlotMap.layout c.tblStart c.tblEnd (Config.SLOTS sh) (Config.MIN_SLOT_BLOCKS sh) = some s →
        s.Places (x.2 :: db.manifest.tables) := by
    intro x hx
    rw [hedit] at hx
    obtain rfl := Option.some.inj hx
    dsimp only
    refine ⟨hp.on hbounded hrefines.sorted hsh h.inside htbl hrun htref hpoints hrdels,
      (hp.within hbounded hrefines.sorted htref hpoints hrdels).1, hnode, ?_, ?_, ?_, ?_⟩
    · unfold Contents.part
      rw [hpoints, hrdels]
      exact h.sections
    · rintro j ⟨h1, h2⟩
      rw [hh.cfg] at hslot
      rw [hfirst] at h1 h2
      rw [hcount] at h2
      exact ⟨by omega, by omega⟩
    · refine hp.maxSeq_le hbounded htref fun y hy => ?_
      obtain ⟨r, hr, rfl⟩ := List.mem_map.mp (hrefines.perm.mem_iff.mp hy)
      rw [r.entry_seq]
      exact seq_le_lastSeq (List.mem_append_right _ hr)
    · intro s hs
      obtain ⟨s', ⟨-, hs'⟩, h1, h2, h3⟩ := h.layout
      obtain rfl := Option.some.inj (hs.symm.trans hs')
      exact (h.places.cons hof (h.marks.free hfree)).same ⟨h1.symm, h2.symm, h3.symm⟩
  have hcuts₁ : Sys.OnlyCuts d₁.fates :=
    hcuts.tail.suffix (Prog.wp_run ((consumes_writeFlushTable _ _ _ _ _).wp _ _) hrun)
  have hwf := Db.flushEdit_wf hsized (Db.flushTref_wf hsized hp h.inside hid htref) hid he
  have hnone : e.added = none → kept = [] := by
    rw [hedit]
    intro hno
    cases hno
  have hend := h₁.commit hwf hm hcuts₁ hnone hadd hc
  cases o with
  | cut => exact hend
  | dropped => exact hend.elim
  | err x =>
    obtain ⟨rfl, rfl⟩ := hend
    exact h₁.refused hh
  | ok u =>
    obtain ⟨rfl, hs⟩ := hend
    have hperm : (db.manifest.view sh e).tables.Perm (tref :: db.manifest.tables) := by
      have := Manifest.tables_view h.stored.holds.wf.length_levels hm.removed hm.narrowed hm.stamped hm.level
      rw [hedit] at this ⊢
      exact this
    have hlay := SlotMap.sameLayout_claim db.slots slot
    have hmarks := (h.marks.claim h.slotCount hlt hof).perm hperm.symm
    have hinside : ({ db with slots := db.slots.claim slot } : Db).SlotsInside := by
      intro i hi
      have := h.inside i (hlay.2.2 ▸ hi)
      rw [SlotMap.slotBase, hlay.1, hlay.2.1]
      exact this
    obtain ⟨s, hacc, hsame⟩ := h.layout
    have hwal : HandleOk sh c (db.afterFlush (.ok u) slot (db.manifest.view sh e)) ∧
        StageOk sh.BLOCK (db.afterFlush (.ok u) slot (db.manifest.view sh e)).wal [] ∧
        (db.afterFlush (.ok u) slot (db.manifest.view sh e)).wal.nextBlock =
          (if db.wraps then c.walStart else db.wal.nextBlock) := by
      unfold Db.afterFlush
      dsimp only
      cases db.wraps with
      | true => exact ⟨⟨hh.cfg, hh.walStart, hh.walEnd, hh.stage⟩, h.stage.resetTo _, congrArg Config.walStart hh.cfg⟩
      | false => exact ⟨⟨hh.cfg, hh.walStart, hh.walEnd, hh.stage⟩, h.stage, rfl⟩
    refine ⟨hwal.1, conts.put tref.id db.table.points db.table.rdels, old ++ kept, [], ?_, (List.append_nil _).symm⟩
    refine ⟨?_, rfl, hwal.2.1, h.nextSeq, ?_, hinside, ⟨s, hacc, hsame.trans hlay⟩, hmarks⟩
    · rw [hwal.2.2]
      exact hs
    · rw [List.append_nil]
      exact h.newest

/-- A flush leaves the log as it is, wherever it ends. -/
theorem flush (hw : c.Works sh) (hsh : sh.RdelCounts) (h : Live sh c db d conts old kept) (hh : HandleOk sh c db)
    (hopen : db.opened = true) (hcuts : Sys.OnlyCuts d.fates) {o : Outcome Error Unit}
    (hrun : Db.flush sh db d = (o, db', d')) : Leaves sh c (old ++ kept) o db' d' := by
  cases Prog.wp_run (Db.flush_step hopen h.stage) hrun with
  | still hk =>
    have hserves : Serves sh c db d' (old ++ kept) :=
      ⟨hh, conts, old, kept, h.keeps (hk.mono fun j hj => h.uses_free hh hj), rfl⟩
    cases o with
    | ok u => exact hserves
    | err x => exact hserves
    | cut => exact hserves.stores
    | dropped => exact hserves
  | wrap he hc =>
    rw [hh.cfg] at hc
    have hnext : Live sh c db d.advance conts old kept := h.same rfl rfl
    exact hnext.wrap hw hh hcuts.tail he hc
  | table hp hwrite hk hid htref he hc =>
    rw [hh.cfg] at hc
    exact h.commitTable hw hsh hh hcuts hp hwrite hk hid htref he hc

end Live

end Horton
