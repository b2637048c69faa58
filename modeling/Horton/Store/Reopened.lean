import Horton.Store.Live

/-!
# Opens of the stored log

`open` finds the manifest, the slots of its tables and what the WAL keeps; so the handle serves the log that the device stores.
On a device that answers every request it never fails.
-/

namespace Horton

open BlockDev GroupLog Sstable

variable {sh : Shape} {c : Config} {db db' : Db} {d d' : Device} {log : List Record}

theorem Manifest.maxSeq_le {m : Manifest} {b : Nat} (h : ∀ t ∈ m.tables, t.maxSeq ≤ b) : m.maxSeq ≤ b := by
  unfold Manifest.maxSeq
  generalize m.tables = ts at h
  induction ts using List.reverseRecOn with
  | nil => exact Nat.zero_le b
  | append_singleton ts t ih =>
    rw [List.map_append, List.foldl_append]
    exact max_le (ih fun t' ht' => h t' (List.mem_append_left _ ht')) (h t (by simp))

/-- No block passes a check that it did not get with a write: none of the log as records, none of the copies as a part of a
manifest. -/
def Genuine (sh : Shape) (c : Config) (d : Device) : Prop :=
  NoForgeIn d c.walStart c.walEnd ∧ Manifest.NoForgedCopy sh c.manifestLayout d

instance (sh : Shape) (c : Config) (d : Device) : Decidable (Genuine sh c d) := inferInstanceAs (Decidable (_ ∧ _))

theorem Genuine.wal (h : Genuine sh c d) : ∀ j, c.InWal j → NoForge d j := fun j hj => h.1 j hj.1 hj.2

/-- What `open` leaves: a handle that serves the log, or a closed one over a device that stores it. -/
def Opens (sh : Shape) (c : Config) (log : List Record) (o : Outcome Error OpenReport) (db : Db) (d : Device) : Prop :=
  match o with
  | .ok _ => Serves sh c db d log
  | .cut => Stores sh c d log
  | _ => HandleOk sh c db ∧ db.opened = false ∧ Stores sh c d log

namespace Stores

/-- The handle behind an `open` that returned. -/
theorem opened (hs : Stores sh c d log) (hh : HandleOk sh c db) (hg : Genuine sh c d)
    (hopen : Db.Opened sh db d db') (hcfg : db'.cfg = db.cfg) (hhandle : HandleOk sh c db') : Serves sh c db' d log := by
  obtain ⟨m, next, top, conts, old, kept, hs, rfl⟩ := hs
  obtain ⟨r, hr, hm⟩ := hopen.recovered
  obtain ⟨s, hlay, hre⟩ := hopen.slots
  obtain ⟨stage, maxSeq, hwal, -, hmax, hle, hnext⟩ := hopen.wal
  have htable := hopen.table
  have hregions := hopen.regions
  rw [hh.cfg] at hr hm hlay hwal hmax hle htable hregions
  obtain ⟨hfirst, hkept, hwalkLe, hstored⟩ := hs.recover hg.2 hg.wal hr
  rw [hfirst] at hm
  rw [hm] at hre hmax hle htable hwal hnext
  rw [hkept] at htable
  have hacc : c.Accepted sh s := ⟨hregions, hlay⟩
  obtain ⟨hcount, hused⟩ := hacc.slotCount
  obtain ⟨s', hrun, hmarks⟩ := Db.rebuildSlots_ok hcount hused (hs.placed s hlay)
  obtain rfl := Except.ok.inj (hre.symm.trans hrun)
  -- Every record that decodes has a number of 64 bits.
  have hbound := (@SysOk.walk_forall d (fun r => r.WF) m.walHead c.walEnd m.flushedSeq (by
    intro i _ _ r hr
    obtain ⟨o, ho⟩ := decodesAt_of_mem_summary hr
    exact (decodesAt_iff.mp ho).1) fun r hr => hr.seq_lt).2.1
  have hwf := hs.holds.wf
  have hflushed := hwf.flushedSeq_lt
  have hseqHigh := hwf.seqHigh_lt
  have hmaxSeq := hwf.maxSeq_lt
  have hhigh := hs.high
  have hwalk : (Db.logWalk c d m).2.2.max < 2 ^ 64 := hbound
  refine ⟨hhandle, conts, old, kept, ?_, rfl⟩
  have htables := Manifest.maxSeq_le hs.maxSeq_le
  have hseqLe := hs.seqHigh_le
  refine ⟨?_, htable, ?_, ?_, ?_, Db.slotsInside_of_opened hopen hcfg, ⟨s, hacc, Db.sameLayout_rebuildSlots hrun⟩, hm ▸ hmarks⟩
  · rw [hm, hwal, hnext]
    exact hstored.mono (by omega)
  · have hlen := hhandle.stage
    rw [hwal] at hlen ⊢
    exact stageOk_recovered hlen _ _ _ _
  · rw [hnext, U64_MAX]
    omega
  · rw [hnext]
    omega

/-- `open` keeps the log that the device stores, however it ends. -/
theorem open_ (hs : Stores sh c d log) (hh : HandleOk sh c db) (hg : Genuine sh c d)
    {o : Outcome Error OpenReport} (hrun : Db.open_ sh db d = (o, db', d')) : Opens sh c log o db' d' := by
  have hend : db.wal.walEnd = db.cfg.walEnd := by rw [hh.walEnd, hh.cfg]
  obtain ⟨⟨hblocks, hwrites, -⟩, hcfg, hws, hwe, hstage, hrest⟩ := Prog.wp_run (Db.open_spec hend d) hrun
  have hs' : Stores sh c d' log := hs.same hblocks hwrites
  have hhandle : db'.wal.stage.length = sh.BLOCK → HandleOk sh c db' := fun hlen =>
    ⟨hcfg.trans hh.cfg, hws.trans hh.walStart, hwe.trans hh.walEnd, hlen⟩
  -- A stage that was read from the log has the length of its blocks.
  have hlength : ∀ r, (Manifest.recoverFrom sh db.cfg.manifestLayout).eval d.blocks = .ok r →
      db'.manifest = Db.firstHead db.cfg r → db'.wal.stage.length = sh.BLOCK := by
    intro r hr hm
    obtain ⟨m, next, top, conts, old, kept, hst, -⟩ := hs
    rw [hh.cfg] at hr hm
    rw [(hst.recover hg.2 hg.wal hr).1] at hm
    rcases hstage with heq | ⟨i, hi, hlt, heq⟩
    · rw [heq]
      exact hh.stage
    · rw [heq]
      rw [hh.cfg] at hlt
      rw [hm] at hi
      exact hst.region.length_block i (hst.region.start_le.trans hi) hlt
  have hclosed : db'.opened = false ∧ (db'.wal.stage = db.wal.stage ∨
      ∃ r, (Manifest.recoverFrom sh db.cfg.manifestLayout).eval d.blocks = .ok r ∧ db'.manifest = Db.firstHead db.cfg r) →
      HandleOk sh c db' ∧ db'.opened = false ∧ Stores sh c d' log := by
    rintro ⟨hc, hst⟩
    refine ⟨hhandle ?_, hc, hs'⟩
    rcases hst with hst | ⟨r, hr, hm⟩
    · rw [hst]
      exact hh.stage
    · exact hlength r hr hm
  cases o with
  | cut => exact hs'
  | err e => exact hclosed hrest
  | dropped => exact hclosed hrest
  | ok x =>
    obtain ⟨r, hr, hm⟩ := hrest.recovered
    obtain ⟨hhandle', conts, old, kept, hl, hlog⟩ := hs.opened hh hg hrest hcfg (hhandle (hlength r hr hm))
    exact ⟨hhandle', conts, old, kept, hl.same hblocks hwrites, hlog⟩

end Stores

end Horton
