import Horton.Db.Open
import Horton.Manifest.Recover
import Horton.Wal.Scan

/-!
# What `open` recovers

`open` only reads.  When it returns, the handle holds the manifest that recovery finds on the device, the slots of its
tables, and the memtable that the walk from the manifest's WAL head replays; otherwise the handle stays closed.
-/

namespace Horton

open BlockDev GroupLog

namespace SlotMap

/-- The two maps divide the region in the same way. -/
def SameLayout (s s' : SlotMap) : Prop := s'.base = s.base ∧ s'.slotBlocks = s.slotBlocks ∧ s'.slots = s.slots

theorem SameLayout.trans {s s' s'' : SlotMap} (h : SameLayout s s') (h' : SameLayout s' s'') : SameLayout s s'' :=
  ⟨h'.1.trans h.1, h'.2.1.trans h.2.1, h'.2.2.trans h.2.2⟩

theorem sameLayout_markUsed {s s' : SlotMap} {slot : Nat} (h : s.markUsed slot = some s') : SameLayout s s' := by
  unfold markUsed at h
  split at h
  · cases h
  · obtain rfl := Option.some.inj h
    exact ⟨rfl, rfl, rfl⟩

theorem sameLayout_setHintAfter (s : SlotMap) (slot : Nat) : SameLayout s (s.setHintAfter slot) := by
  unfold setHintAfter
  split <;> exact ⟨rfl, rfl, rfl⟩

theorem sameLayout_claim (s : SlotMap) (slot : Nat) : SameLayout s (s.claim slot) := by
  unfold claim
  split <;> exact ⟨rfl, rfl, rfl⟩

end SlotMap

namespace Db

variable {sh : Shape} {db : Db} {d : Device}

theorem sameLayout_markTables {ts : List TableRef} {slots slots' : SlotMap} {newest newest' : Option (Nat × Nat)}
    (h : markTables ts slots newest = .ok (slots', newest')) : slots.SameLayout slots' := by
  induction ts generalizing slots newest with
  | nil =>
    cases h
    exact ⟨rfl, rfl, rfl⟩
  | cons t ts ih =>
    rw [markTables] at h
    cases h1 : slots.slotOf t.firstBlock t.blockCount with
    | none => rw [h1] at h; cases h
    | some slot =>
      rw [h1, Option.elim_some] at h
      replace h : (((slots.markUsed slot).elim (.error .corruptManifest) .ok : Except Error SlotMap) >>= fun s₁ =>
        markTables ts s₁ (if newest.all (t.id > ·.1) then some (t.id, slot) else newest)) = .ok (slots', newest') := h
      cases h2 : slots.markUsed slot with
      | none => rw [h2] at h; cases h
      | some s₁ =>
        rw [h2] at h
        exact (SlotMap.sameLayout_markUsed h2).trans (ih h)

theorem sameLayout_rebuildSlots {m : Manifest} {slots slots' : SlotMap} (h : rebuildSlots m slots = .ok slots') :
    slots.SameLayout slots' := by
  rw [rebuildSlots] at h
  cases hm : markTables m.tables slots none with
  | error e => rw [hm] at h; cases h
  | ok x =>
    obtain ⟨s, newest⟩ := x
    rw [hm] at h
    have hs := sameLayout_markTables hm
    obtain rfl := Except.ok.inj h
    cases newest with
    | none => exact hs
    | some n => exact hs.trans (SlotMap.sameLayout_setHintAfter s n.2)

/-- The manifest in memory: a fresh one starts its log with the region. -/
def firstHead (cfg : Config) (r : Manifest × Bool) : Manifest := if r.2 then { r.1 with walHead := cfg.walStart } else r.1

/-- What the walk over the log finds from the head of the manifest on. -/
def logWalk (cfg : Config) (d : Device) (m : Manifest) : List Record × Nat × GroupLog.Cursor :=
  walk (summaries d) m.flushedSeq (cfg.walEnd - m.walHead) m.walHead ⟨0, none⟩

/-- The handle behind an `open` that returned. -/
structure Opened (sh : Shape) (db : Db) (d : Device) (db' : Db) : Prop where
  regions : db.cfg.checkRegions sh = .ok ()
  recovered : ∃ r, (Manifest.recoverFrom sh db.cfg.manifestLayout).eval d.blocks = .ok r ∧
    db'.manifest = firstHead db.cfg r
  slots : ∃ s, SlotMap.layout db.cfg.tblStart db.cfg.tblEnd (Config.SLOTS sh) (Config.MIN_SLOT_BLOCKS sh) = some s ∧
    rebuildSlots db'.manifest s = .ok db'.slots
  table : replayAll sh .new (logWalk db.cfg d db'.manifest).1 = .ok db'.table
  wal : ∃ stage maxSeq, db'.wal = ⟨db.wal.walStart, db.wal.walEnd, stage, 0, sh.BLOCK,
    (logWalk db.cfg d db'.manifest).2.1, maxSeq, false⟩ ∧ (stage = db.wal.stage ∨ ∃ i, db'.manifest.walHead ≤ i ∧
      i < db.cfg.walEnd ∧ stage = d.blocks i) ∧ (logWalk db.cfg d db'.manifest).2.2.max ≤ maxSeq ∧
      maxSeq ≤ max (logWalk db.cfg d db'.manifest).2.2.max db'.manifest.flushedSeq ∧
      db'.nextSeq = max (max maxSeq db'.manifest.seqHigh) db'.manifest.maxSeq
  opened : db'.opened = true

/-- How `open` ends. -/
def OpenEnd (sh : Shape) (db : Db) (d : Device) (o : Outcome Error OpenReport) (db' : Db) (d' : Device) : Prop :=
  ReadsOnly d d' ∧ db'.cfg = db.cfg ∧ db'.wal.walStart = db.wal.walStart ∧ db'.wal.walEnd = db.wal.walEnd ∧
    (db'.wal.stage = db.wal.stage ∨ ∃ i, db'.manifest.walHead ≤ i ∧ i < db.cfg.walEnd ∧ db'.wal.stage = d.blocks i) ∧
    match o with
    | .ok _ => Opened sh db d db'
    | _ => db'.opened = false ∧ (db'.wal.stage = db.wal.stage ∨
        ∃ r, (Manifest.recoverFrom sh db.cfg.manifestLayout).eval d.blocks = .ok r ∧ db'.manifest = firstHead db.cfg r)

theorem open_spec (hend : db.wal.walEnd = db.cfg.walEnd) (d : Device) : (open_ sh).wp (OpenEnd sh db d) db d := by
  rw [open_, Prog.wp_bind, Prog.wp_modify, Prog.andThen_ok, Prog.wp_bind, Prog.wp_get, Prog.andThen_ok, Prog.wp_bind]
  have hclosed : ∀ (db' : Db) (d' : Device) (e : Error), ReadsOnly d d' → db'.cfg = db.cfg → db'.wal = db.wal →
      db'.opened = false → OpenEnd sh db d (.err e) db' d' := by
    intro db' d' e h1 h2 h3 h4
    exact ⟨h1, h2, by rw [h3], by rw [h3], Or.inl (by rw [h3]), h4, Or.inl (by rw [h3])⟩
  cases hreg : db.cfg.checkRegions sh with
  | error e => exact hclosed _ _ e (.refl d) rfl rfl rfl
  | ok u =>
    rw [Prog.wp_ofExcept_ok, Prog.andThen_ok, Prog.wp_bind]
    cases hlay : SlotMap.layout db.cfg.tblStart db.cfg.tblEnd (Config.SLOTS sh) (Config.MIN_SLOT_BLOCKS sh) with
    | none => exact hclosed _ _ .badConfig (.refl d) rfl rfl rfl
    | some s =>
      rw [Option.elim_some, Prog.wp_ofExcept_ok, Prog.andThen_ok, Prog.wp_bind]
      refine Prog.wp_mono (Reads.run_spec Error.device (Manifest.recoverFrom sh db.cfg.manifestLayout) _ d) ?_
      intro o db₁ d₁ hp
      cases o with
      | err e =>
        obtain ⟨rfl, ⟨-, hr⟩ | hf⟩ := hp
        · exact hclosed _ _ e hr rfl rfl rfl
        · exact hclosed _ _ e hf.2.1 rfl rfl rfl
      | cut =>
        obtain ⟨rfl, hf⟩ := hp
        exact ⟨hf.1, rfl, rfl, rfl, Or.inl rfl, rfl, Or.inl rfl⟩
      | dropped =>
        obtain ⟨rfl, hf⟩ := hp
        exact ⟨hf.1, rfl, rfl, rfl, Or.inl rfl, rfl, Or.inl rfl⟩
      | ok r =>
        obtain ⟨rfl, heval, hr⟩ := hp
        rw [Prog.andThen_ok]
        obtain ⟨m, fresh⟩ := r
        dsimp only
        rw [Prog.wp_bind, Prog.wp_modify, Prog.andThen_ok, Prog.wp_bind]
        generalize hm : (if fresh = true then { m with walHead := db.cfg.walStart } else m) = m'
        have hfirst : m' = firstHead db.cfg (m, fresh) := hm.symm
        cases hslots : rebuildSlots m' s with
        | error e => exact hclosed _ _ e hr rfl rfl rfl
        | ok s' =>
          rw [Prog.wp_ofExcept_ok, Prog.andThen_ok, Prog.wp_bind, Prog.wp_modify, Prog.andThen_ok, Prog.wp_bind, onWal,
            Prog.wp_zoom]
          refine Prog.wp_mono (recoverFrom_spec sh .new m'.walHead m'.flushedSeq _ d₁) ?_
          rintro o w' d₂ ⟨h1, h2, h3, h4, h5⟩
          dsimp only at h2 h3 h4 h5
          rw [hend] at h4 h5
          have hsum : summaries d₁ = summaries d := by
            funext i
            rw [summaries, summaries, hr.1]
          rw [hsum] at h5
          rw [hr.1] at h4
          have hrun := hr.trans h1
          cases o with
          | err e => exact ⟨hrun, rfl, h2, h3, h4, rfl, Or.inr ⟨_, heval, hfirst⟩⟩
          | cut => exact ⟨hrun, rfl, h2, h3, h4, rfl, Or.inr ⟨_, heval, hfirst⟩⟩
          | dropped => exact ⟨hrun, rfl, h2, h3, h4, rfl, Or.inr ⟨_, heval, hfirst⟩⟩
          | ok x =>
            obtain ⟨table, st⟩ := x
            obtain ⟨h6, -, h7, h8, h9⟩ := h5
            refine ⟨hrun, rfl, h2, h3, h4, hreg, ⟨_, heval, hfirst⟩, ⟨s, hlay, hslots⟩, h6, ?_, rfl⟩
            exact ⟨w'.stage, st.maxSeq, h9.trans (by rw [hend]; rfl), h4, h7, h8, rfl⟩

end Db

end Horton
