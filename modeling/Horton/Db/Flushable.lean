import Horton.Db.Legal
import Horton.Sstable.Capacity

/-!
# When a flush goes through

Slots are large enough for every memtable, but a table has limits that no assertion on the shape grants: one block of index
entries, 16-bit restart offsets, 16-bit counts of range tombstones.  On a device without errors a flush that finds room for
its table goes through within these limits (`Reached.flush_ok_iff`), and answers `TableTooLarge` beyond them, on every try.
-/

namespace Horton

open BlockDev Sstable

/-! ### The only error of the writers -/

section Throws

open Prog

variable {sh : Shape}

/-- The table does not fit. -/
def TooLarge (e : Error) : Prop := e = .tableTooLarge

private theorem throws_sealCurrent (compressed : Bool) : Throws TooLarge (TableWriter.sealCurrent sh compressed) := by
  refine throws_get.bind fun w => ?_
  split
  · exact throws_throw rfl
  refine (throws_ofExcept ?_).bind fun block => (throws_set _).bind fun _ => (throws_writeBlock _ _ _).bind fun _ =>
    (throws_ofExcept ?_).bind fun index => throws_modify _
  · intro e he
    unfold sealData at he
    cases hb : dataBody sh w.data w.payload w.restarts with
    | ok body => rw [hb] at he; cases he
    | error x =>
      rw [hb] at he
      obtain rfl := Except.error.inj he
      unfold dataBody at hb
      dsimp only at hb
      split_ifs at hb <;> exact (Except.error.inj hb).symm
  · intro e he
    unfold appendIndex at he
    split_ifs at he <;> exact (Except.error.inj he).symm

private theorem throws_push {e : SstEntry} (he : Encodable sh e) (compressed : Bool) :
    Throws TooLarge (TableWriter.push sh e compressed) := by
  have hkey := he.key_le
  have hsizes : ∀ x, entrySizes e = .error x → TooLarge x := by
    intro x hx
    rw [entrySizes_of_encodable he] at hx
    cases hx
  refine (throws_ofExcept hsizes).bind fun elen => ?_
  rw [if_neg (by omega)]
  have hstage : ∀ sealed : PushOutcome, Throws TooLarge (do
      let w ← Prog.get
      if w.n % RESTART_INTERVAL = 0 ∧ w.payload > U16_MAX then Prog.throw .tableTooLarge
      else
        Prog.set (w.stageEntry e elen)
        return sealed : Prog TableWriter Error PushOutcome) := by
    intro sealed
    refine throws_get.bind fun w => ?_
    split
    · exact throws_throw rfl
    · exact (throws_set _).bind fun _ => throws_pure _
  refine throws_get.bind fun w => ?_
  split
  · exact hstage _
  split
  · exact (throws_throw rfl : Throws TooLarge (Prog.throw Error.tableTooLarge)).bind hstage
  split
  · exact (throws_throw rfl : Throws TooLarge (Prog.throw Error.tableTooLarge)).bind hstage
  refine (throws_sealCurrent compressed).bind fun _ => ?_
  split
  · exact hstage _
  · exact (throws_throw rfl : Throws TooLarge (Prog.throw Error.tableTooLarge)).bind hstage

private theorem throws_pushAll {es : List SstEntry} (he : ∀ e ∈ es, Encodable sh e) (compressed : Bool) :
    Throws TooLarge (pushAll sh compressed es) := by
  induction es with
  | nil => exact throws_pure _
  | cons e es ih => exact (throws_push (he e (by simp)) compressed).bind fun _ => ih fun x hx => he x (by simp [hx])

private theorem throws_sealTail (compressed : Bool) : Throws TooLarge (TableWriter.sealTail sh compressed) := by
  have hend : Throws TooLarge (do
      let w ← Prog.get
      return w.dataBlocks : Prog TableWriter Error Nat) := throws_get.bind fun w => throws_pure _
  refine throws_get.bind fun w => ?_
  split
  · split
    · exact (throws_throw rfl : Throws TooLarge (Prog.throw Error.tableTooLarge)).bind fun _ => hend
    · exact (throws_sealCurrent compressed).bind fun _ => hend
  · exact hend

private theorem throws_finishMeta (rdelBlocks rdelMinSeq : Nat) :
    Throws TooLarge (TableWriter.finishMeta sh rdelBlocks rdelMinSeq) := by
  refine throws_get.bind fun w => ?_
  dsimp only
  split
  · exact throws_throw rfl
  refine (throws_set _).bind fun _ => (throws_writeBlock _ _ _).bind fun _ => ?_
  split
  · exact throws_throw rfl
  refine (throws_writeBlock _ _ _).bind fun _ => ?_
  split
  · exact throws_throw rfl
  · exact (throws_set _).bind fun _ => (throws_writeBlock _ _ _).bind fun _ => (throws_flush _).bind fun _ => throws_pure _

private theorem throws_sealBlock : Throws TooLarge (RdelWriter.sealBlock sh) := by
  refine throws_get.bind fun w => ?_
  split
  · exact throws_throw rfl
  split
  · exact throws_throw rfl
  refine (throws_ofExcept ?_).bind fun block => (throws_writeBlock _ _ _).bind fun _ => throws_modify _
  intro e he
  unfold sealRdel at he
  split_ifs at he
  exact (Except.error.inj he).symm

private theorem throws_pushRdels {rs : List RdelEntry} (hr : ∀ r ∈ rs, RdelOk sh r) : Throws TooLarge (pushRdels sh rs) := by
  induction rs with
  | nil => exact throws_pure _
  | cons r rs ih =>
    have hok := hr r (by simp)
    refine Throws.bind ?_ fun _ => ih fun x hx => hr x (by simp [hx])
    unfold RdelWriter.push
    rw [if_neg (not_lt.mpr hok.start_le), if_neg (not_lt.mpr hok.stop_le)]
    dsimp only
    split
    · exact throws_throw rfl
    refine throws_get.bind fun w => ?_
    split
    · exact throws_sealBlock.bind fun _ => throws_modify _
    · exact throws_modify _

private theorem throws_writeRdelBlocks {σ : Type} (base : Nat) {rs : List RdelEntry} (hr : ∀ r ∈ rs, RdelOk sh r) :
    Throws TooLarge (writeRdelBlocks (σ := σ) sh base rs) := by
  refine Throws.bind (Throws.runLocal ((throws_pushRdels hr).bind fun _ => ?_) _) fun x => throws_pure _
  have hend : Throws TooLarge (do
      let w ← Prog.get
      return w.blocks : Prog RdelWriter Error Nat) := throws_get.bind fun w => throws_pure _
  refine throws_get.bind fun w => ?_
  split
  · exact throws_sealBlock.bind fun _ => hend
  · exact hend

theorem throws_writeFlushTable {σ : Type} {t : MemTable} (ht : t.Bounded sh) (base k : Nat) (plan : TablePlan)
    (rdelPlan : RdelPlan) : Throws TooLarge (Db.writeFlushTable (σ := σ) sh t base k plan rdelPlan) := by
  refine Throws.bind (Throws.runLocal ?_ _) fun x => throws_pure _
  refine (throws_pushAll (fun e he => (ht.encodable e he).1) true).bind fun _ => (throws_sealTail true).bind fun n => ?_
  split
  · exact throws_throw rfl
  · exact (throws_writeRdelBlocks _ ht.rdelOk).bind fun n => throws_finishMeta _ _

end Throws

/-! ### The table of a flush -/

section Table

variable {sh : Shape} {σ : Type} {s : σ} {d : Device} {t : MemTable} {base : Nat}

/-- The blocks of a flush are those of a table that is built in a run of the planned length. -/
theorem writeFlushTable_eq (t : MemTable) (base k : Nat) (plan : TablePlan) (rdelPlan : RdelPlan) :
    Db.writeFlushTable (σ := σ) sh t base k plan rdelPlan = (do
      let _ ← buildTable sh (t.points.map (·, true)) true base k plan.dataBlocks t.rdels rdelPlan.minSeq
      pure ()) := by
  funext s d
  unfold Db.writeFlushTable buildTable
  rw [pushAll_eq]
  simp only [bind, Prog.bind, Prog.runLocal, pure]
  rcases pushEach sh (t.points.map (·, true)) ((TableWriter.new sh base k).withBlockLimit plan.dataBlocks) d with
    ⟨o₁, w₁, d₁⟩
  cases o₁ <;> try rfl
  dsimp only
  rcases TableWriter.sealTail sh true w₁ d₁ with ⟨o₂, w₂, d₂⟩
  cases o₂ <;> try rfl
  rename_i n
  by_cases hbase : base + n > U64_MAX
  · simp only [if_pos hbase]
    rfl
  simp only [if_neg hbase, Prog.bind]
  rcases writeRdelBlocks sh (base + n) t.rdels w₂ d₂ with ⟨o₃, w₃, d₃⟩
  cases o₃ <;> try rfl
  rename_i m
  dsimp only
  rcases TableWriter.finishMeta sh m rdelPlan.minSeq w₃ d₃ with ⟨o₄, w₄, d₄⟩
  cases o₄ <;> rfl

private theorem map_fst_pair (es : List SstEntry) : (es.map (·, true)).map Prod.fst = es := by
  simp [Function.comp_def]

/-- A table within the limits is written. -/
theorem writeFlushTable_ok (ht : t.Bounded sh) (hf : Fits sh t.points t.rdels) (hd : Healthy d) {plan : TablePlan}
    {rdelPlan : RdelPlan} (hplan : plan.dataBlocks = (dataBins sh t.points).length) (k : Nat)
    (hids : base + (dataBins sh t.points).length + (rdelBins sh t.rdels).length + 2 ≤ U64_MAX) :
    ∃ d', Db.writeFlushTable sh t base k plan rdelPlan s d = (.ok (), s, d') ∧ Healthy d' := by
  have htotal := ht.total_le
  have hu : U32_MAX = 0xFFFFFFFF := rfl
  have hbuild := buildable_of_fits ht.encodable ht.rdelOk hf hids (by omega)
  have hrange : ∀ e ∈ t.points.map (·, true), TableWriter.InRange e.1 := by
    intro e he
    obtain ⟨x, hx, rfl⟩ := List.mem_map.mp he
    exact ht.inRange x hx
  have hdel := @buildTable_delivers σ s d sh (t.points.map (·, true)) true base k plan.dataBlocks t.rdels rdelPlan.minSeq
    (by omega) hrange
  rw [map_fst_pair, hplan] at hdel
  obtain ⟨r, hok, ⟨hs, -⟩, hd'⟩ := hdel.of_healthy hd hbuild
  refine ⟨_, ?_, hd'⟩
  rw [writeFlushTable_eq, hplan]
  have hrun := Db.eq_prod (buildTable sh (t.points.map (·, true)) true base k (dataBins sh t.points).length t.rdels
    rdelPlan.minSeq s d)
  rw [hok, hs] at hrun
  show Prog.bind _ _ s d = _
  rw [Prog.bind, hrun]
  rfl

/-- A table beyond the limits is too large. -/
theorem writeFlushTable_too_large (ht : t.Bounded sh) (hf : ¬ Fits sh t.points t.rdels) (hd : Healthy d) (hbase : base ≤ U64_MAX)
    (plan : TablePlan) (rdelPlan : RdelPlan) (k : Nat) :
    (Db.writeFlushTable sh t base k plan rdelPlan s d).1 = .err .tableTooLarge := by
  have hrange : ∀ e ∈ t.points.map (·, true), TableWriter.InRange e.1 := by
    intro e he
    obtain ⟨x, hx, rfl⟩ := List.mem_map.mp he
    exact ht.inRange x hx
  have hdel := @buildTable_delivers σ s d sh (t.points.map (·, true)) true base k plan.dataBlocks t.rdels rdelPlan.minSeq
    hbase hrange
  have herr := (@throws_writeFlushTable sh σ t ht base k plan rdelPlan s d hd).2
  rw [writeFlushTable_eq] at herr ⊢
  change ∀ e, (Prog.bind _ _ s d).1 = _ → _ at herr
  change (Prog.bind _ _ s d).1 = _
  unfold Prog.wp at hdel
  unfold Prog.bind at herr ⊢
  cases hb : buildTable sh (t.points.map (·, true)) true base k plan.dataBlocks t.rdels rdelPlan.minSeq s d with
  | mk o rest =>
    rw [hb] at hdel herr
    cases o with
    | ok r =>
      obtain ⟨-, -, hbuilt⟩ := hdel.of_ok r rfl
      rw [map_fst_pair] at hbuilt
      exact absurd hbuilt.fits hf
    | err e => exact congrArg Outcome.err (herr e rfl)
    | cut => exact absurd hd hdel
    | dropped => exact absurd hd hdel

end Table

/-! ### Flushes on a device without errors -/

theorem Manifest.commitEdit_exhausted {sh : Shape} (layout : ManifestLayout) {m : Manifest} {e : ManifestEdit}
    (hc : m.checkEdit sh e = .ok ()) (hseq : ¬ m.seq + 1 ≤ U64_MAX) (d : Device) :
    (Manifest.commitEdit sh layout e m d).1 = .err .counterExhausted := by
  have hw : (Manifest.commitEdit sh layout e).wp (fun o _ _ => o = .err .counterExhausted) m d := by
    rw [Manifest.commitEdit, Prog.wp_bind, Prog.wp_get, Prog.andThen_ok, hc, Prog.wp_bind, Prog.wp_ofExcept_ok,
      Prog.andThen_ok, if_pos (by omega)]
    rfl
  exact hw

/-- On a device without errors an accepted edit commits, unless the manifest has run out of numbers. -/
theorem Manifest.commitEdit_healthy {sh : Shape} (layout : ManifestLayout) {m : Manifest} {e : ManifestEdit} (hm : m.WF sh)
    (he : e.WF sh) (hc : m.checkEdit sh e = .ok ()) (hseq : m.seq + 1 ≤ U64_MAX) {d : Device} (hd : Healthy d) :
    (Manifest.commitEdit sh layout e m d).1 = .ok () := by
  have hnil : ∀ i, d.fates.getD i .ok = .ok := by simp [show d.fates = [] from hd]
  have hw := Manifest.commitEdit_spec layout (Manifest.isBody_writeBody hm he hc) hc hseq d
  unfold Prog.wp at hw
  cases ho : (Manifest.commitEdit sh layout e m d).1 with
  | ok u => rfl
  | err x =>
    rw [ho] at hw
    obtain ⟨-, -, t, k, -, hfate⟩ := hw
    exact absurd ((hnil t).symm.trans hfate) (by simp)
  | cut =>
    rw [ho] at hw
    obtain ⟨-, t, k, -, hfate⟩ := hw
    exact absurd ((hnil t).symm.trans hfate) (by simp)
  | dropped =>
    rw [ho] at hw
    obtain ⟨-, t, k, -, hfate⟩ := hw
    exact absurd ((hnil t).symm.trans hfate) (by simp)

namespace Db

variable {sh : Shape} {cfg : Config} {db : Db} {d : Device}

/-- Level 0 takes another table, and a slot is free beyond the compaction reserve. -/
def RoomForTable (sh : Shape) (db : Db) : Prop :=
  db.manifest.l0.length < sh.TABLES ∧ COMPACTION_RESERVE sh < db.slots.freeSlots + db.slots.reservedSlots ∧
    db.slots.findFree ≠ none

/-- The ids of tables and the numbers of manifests are not used up. -/
def CountersLeft (db : Db) : Prop := db.manifest.nextTableId + 1 ≤ U32_MAX ∧ db.manifest.seq + 1 ≤ U64_MAX

/-- The log has a block for what is staged. -/
def StageRoom (db : Db) : Prop := db.wal.stageLen = 0 ∨ db.wal.nextBlock < db.wal.walEnd

/-- What is asked of a flush: a table that fits, and success where there is room for it. -/
def Flushes (sh : Shape) (db : Db) (o : Outcome Error Unit) : Prop :=
  o ≠ .err .tableTooLarge ∧ (db.RoomForTable sh ∧ db.CountersLeft → o = .ok ())

/-- Without a staged record the commit of the log is a barrier; otherwise the records take the next block, if there is one. -/
theorem commit_healthy (hd : Healthy d) :
    (db.StageRoom → ∃ w d', onWal WalWriter.commit db d = (.ok (), { db with wal := w }, d') ∧ Healthy d' ∧
        (w = db.wal ∨ db.wal.nextBlock < db.wal.walEnd ∧ w = db.wal.wrote)) ∧
      (¬ db.StageRoom → (onWal WalWriter.commit db d).1 = .err .walFull) := by
  have hd₁ : Healthy (d.put db.wal.nextBlock db.wal.padded db.wal.padded).advance := Healthy.advance hd
  constructor
  · intro hroom
    have hw : (onWal WalWriter.commit).wp (fun o db' d' => o = .ok () ∧ (∃ w, db' = { db with wal := w } ∧
        (w = db.wal ∨ db.wal.nextBlock < db.wal.walEnd ∧ w = db.wal.wrote)) ∧ Healthy d') db d := by
      rw [onWal, Prog.wp_zoom, wp_commit]
      split
      · rename_i hpos
        have hlt := hroom.resolve_left (by omega)
        rw [wp_writeStage, if_neg (by omega), hd.fate]
        dsimp only
        rw [Prog.andThen_ok, Prog.wp_flush, hd₁.fate]
        exact ⟨rfl, ⟨_, rfl, .inr ⟨hlt, rfl⟩⟩, hd₁.advance⟩
      · rw [Prog.wp_flush, hd.fate]
        exact ⟨rfl, ⟨db.wal, rfl, .inl rfl⟩, hd.advance⟩
    obtain ⟨ho, ⟨w, hdb, heq⟩, hd'⟩ := hw
    exact ⟨w, _, Prod.ext ho (Prod.ext hdb rfl), hd', heq⟩
  · intro hfull
    unfold StageRoom at hfull
    rw [not_or, not_lt] at hfull
    have hw : (onWal WalWriter.commit).wp (fun o _ _ => o = .err .walFull) db d := by
      rw [onWal, Prog.wp_zoom, wp_commit, if_pos (by omega), wp_writeStage, if_pos hfull.2]
      rfl
    exact hw

/-- The edit of a flush is accepted where level 0 has room and a slot is free. -/
theorem checkEdit_flush (hu : db.Usable sh) (hl0 : db.manifest.l0.length < sh.TABLES) {slot : Nat}
    (hslot : db.slots.findFree = some slot) {tref : TableRef} {e : ManifestEdit} (he : db.flushEdit tref = .ok e) :
    db.manifest.checkEdit sh e = .ok () := by
  obtain rfl := flushEdit_ok he
  have hlevels := sh.assertSlots.1
  have hn : db.slots.slots ≤ 64 := hu.slotCount ▸ sh.assertSlots.2.2
  have hmarked := SlotMap.marked_claim hn hslot
  have hle : (db.slots.claim slot).marked ≤ (db.slots.claim slot).slots := by
    have := List.countP_le_length (p := bit (db.slots.claim slot).used) (l := List.range (db.slots.claim slot).slots)
    rwa [List.length_range] at this
  rw [(SlotMap.sameLayout_claim db.slots slot).2.2, hmarked, hu.slotCount] at hle
  have hplaced := hu.placed
  have hcap : db.manifest.live < Manifest.CAPACITY sh := by
    show db.manifest.live < sh.LEVELS * sh.TABLES
    unfold Config.SLOTS at hle
    omega
  have h0 : countOnes 0 = 0 := by decide
  unfold Manifest.checkEdit
  simp only [ManifestEdit.EMPTY, Nat.zero_or, Nat.zero_and, h0, Nat.sub_zero]
  rw [if_neg (by simp), if_neg (by omega), if_neg (by omega), if_neg (by omega)]

/-- An empty memtable flushes, unless the log has to start over and the manifest has run out of numbers. -/
private theorem wrapWalIfFull_healthy (hu : db.Usable sh) (hb : db.cfg.Bounded) (hd : Healthy d) :
    (wrapWalIfFull sh).wp (fun o _ _ => db.Flushes sh o) db d := by
  have hok : db.Flushes sh (.ok ()) := ⟨by simp, fun _ => rfl⟩
  rw [wrapWalIfFull, Prog.wp_bind, Prog.wp_get, Prog.andThen_ok]
  split
  · exact hok
  rw [Prog.wp_bind]
  have hc : db.manifest.checkEdit sh db.wrapEdit = .ok () := by
    unfold Manifest.checkEdit
    rw [if_neg (by simp [wrapEdit, ManifestEdit.EMPTY, ManifestEdit.setWalHead, ManifestEdit.noteFlushed])]
    rfl
  refine wp_onManifest fun o m d' hrun => ?_
  by_cases hseq : db.manifest.seq + 1 ≤ U64_MAX
  · have hone := Manifest.commitEdit_healthy db.cfg.manifestLayout hu.manifest (wrapEdit_wf (hu.sized hb)) hc hseq hd
    rw [hrun] at hone
    obtain rfl : o = .ok () := hone
    exact hok
  · have hnone := Manifest.commitEdit_exhausted db.cfg.manifestLayout hc hseq d
    rw [hrun] at hnone
    obtain rfl : o = .err .counterExhausted := hnone
    exact ⟨by simp, fun h => absurd h.2.2 hseq⟩

/-- The commit at the end of a flush that wrote its table. -/
private theorem finishFlush_healthy (hu : db.Usable sh) (hb : db.cfg.Bounded) (hd : Healthy d) {plan : TablePlan}
    {rdelPlan : RdelPlan} {slot : Nat} (hp : FlushPlan sh db plan rdelPlan slot) (hl0 : db.manifest.l0.length < sh.TABLES)
    (hid : db.manifest.nextTableId + 1 ≤ U32_MAX) (htotal : rdelPlan.blocks + plan.dataBlocks + 3 ≤ U32_MAX)
    (hcount : plan.entryCount ≤ U32_MAX) :
    (do
      let tref ← Prog.ofExcept (flushTref sh db.cfg.nodeId db.manifest.nextTableId (db.slots.slotBase slot)
        (rdelPlan.blocks + plan.dataBlocks + 3) plan rdelPlan)
      let edit ← Prog.ofExcept (db.flushEdit tref)
      onManifest (Manifest.commitEdit sh db.cfg.manifestLayout edit)
      Prog.modify fun db' =>
        { db' with
          slots := db'.slots.claim slot
          table := db'.table.clear
          wal := if db.wraps then db'.wal.resetTo db'.cfg.walStart else db'.wal } : Prog Db Error Unit).wp
      (fun o _ _ => db.Flushes sh o) db d := by
  have hslot := (freeSlotFor_ok hp.slot).2
  rw [Prog.wp_bind]
  cases htref : flushTref sh db.cfg.nodeId db.manifest.nextTableId (db.slots.slotBase slot)
    (rdelPlan.blocks + plan.dataBlocks + 3) plan rdelPlan with
  | error x =>
    unfold flushTref at htref
    rw [if_neg (by omega), if_neg (by omega)] at htref
    cases htref
  | ok tref =>
    rw [Prog.wp_ofExcept_ok, Prog.andThen_ok, Prog.wp_bind]
    cases he : db.flushEdit tref with
    | error x => cases he
    | ok e =>
      rw [Prog.wp_ofExcept_ok, Prog.andThen_ok, Prog.wp_bind]
      have hwf := flushEdit_wf (hu.sized hb) (flushTref_wf (hu.sized hb) hp hu.slots hid htref) hid he
      have hc := checkEdit_flush hu hl0 hslot he
      refine wp_onManifest fun o m d' hrun => ?_
      by_cases hseq : db.manifest.seq + 1 ≤ U64_MAX
      · have hone := Manifest.commitEdit_healthy db.cfg.manifestLayout hu.manifest hwf hc hseq hd
        rw [hrun] at hone
        obtain rfl : o = .ok () := hone
        exact ⟨by simp [Prog.modify], fun _ => rfl⟩
      · have hnone := Manifest.commitEdit_exhausted db.cfg.manifestLayout hc hseq d
        rw [hrun] at hnone
        obtain rfl : o = .err .counterExhausted := hnone
        exact ⟨by simp, fun h => absurd h.2.2 hseq⟩

theorem noRoom_ne (db : Db) : db.noRoom sh ≠ .tableTooLarge := by
  unfold noRoom
  split <;> simp

/-- Where there is room for a table, a slot is found, and it is large enough. -/
private theorem freeSlotFor_room (hu : db.Usable sh) {total : Nat} (htotal : total ≤ maxFlushBlocks sh) :
    (∃ slot, db.freeSlotFor sh total = .ok slot ∧ COMPACTION_RESERVE sh < db.slots.freeSlots + db.slots.reservedSlots) ∨
      db.freeSlotFor sh total = .error (db.noRoom sh) ∧ ¬ db.RoomForTable sh := by
  have hblocks : total ≤ db.slots.slotBlocks := htotal.trans hu.slotBlocks
  unfold freeSlotFor
  rw [if_neg (by omega)]
  dsimp only
  by_cases hhead : db.slots.freeSlots + db.slots.reservedSlots > COMPACTION_RESERVE sh
  · rw [if_pos hhead]
    cases hfree : db.slots.findFree with
    | some slot => exact Or.inl ⟨slot, rfl, hhead⟩
    | none => exact Or.inr ⟨rfl, fun h => h.2.2 hfree⟩
  · rw [if_neg hhead]
    exact Or.inr ⟨rfl, fun h => hhead h.2.1⟩

/-- Behind the commit of the log a flush does what is asked just if its table, where there is room for one, fits. -/
theorem flushTail_healthy (hu : db.Usable sh) (hb : db.cfg.Bounded) (hd : Healthy d) :
    (flushTail sh).wp (fun o _ _ => db.Flushes sh o ↔
      (db.table.isEmpty = false → db.RoomForTable sh → Fits sh db.table.points db.table.rdels)) db d := by
  have ht := hu.table
  rw [flushTail, Prog.wp_bind, Prog.wp_get, Prog.andThen_ok]
  split
  · rename_i hempty
    refine Prog.wp_mono (wrapWalIfFull_healthy hu hb hd) fun o db' d' ho => ?_
    exact ⟨fun _ hne => absurd (hempty.symm.trans hne) (by simp), fun _ => ho⟩
  rename_i hne
  have hne' : db.table.isEmpty = false := by simpa using hne
  -- No room: the flush says so, and the table need not fit.
  have hnone : ¬ db.RoomForTable sh → (db.Flushes sh (.err (db.noRoom sh)) ↔
      (db.table.isEmpty = false → db.RoomForTable sh → Fits sh db.table.points db.table.rdels)) := by
    intro hno
    refine ⟨fun _ _ h => absurd h hno, fun _ => ⟨?_, fun h => absurd h.1 hno⟩⟩
    exact fun he => noRoom_ne db (Outcome.err.inj he)
  split
  · rename_i hl0
    exact hnone fun h => absurd h.1 (not_lt.mpr hl0)
  rename_i hl0
  have hsizes : ∀ e ∈ db.table.points,
      entrySizes e = .ok (encodeEntry e).length ∧ fitsBlock sh [] e = true ∧ e.key.length ≤ sh.KEY_MAX := by
    intro e he
    obtain ⟨henc, hfit⟩ := ht.encodable e he
    exact ⟨entrySizes_of_encodable henc, hfit, henc.key_le⟩
  obtain ⟨plan, hplan, hdata, hentries⟩ : ∃ plan, planTable sh db.table.points = .ok plan ∧
      plan.dataBlocks = (dataBins sh db.table.points).length ∧ plan.entryCount = db.table.points.length :=
    ⟨_, planTable_eq hsizes, rfl, rfl⟩
  obtain ⟨rdelPlan, hrplan, hrblocks⟩ := planRdelBlocks_eq fun r hr => (ht.rdelOk r hr).fits_nil
  replace hrblocks : rdelPlan.blocks = (rdelBins sh db.table.rdels).length := hrblocks
  rw [Prog.wp_bind, hplan, Prog.wp_ofExcept_ok, Prog.andThen_ok, Prog.wp_bind, hrplan, Prog.wp_ofExcept_ok, Prog.andThen_ok,
    Prog.wp_bind]
  have hblocks := ht.blocks_le
  have htotal := ht.total_le
  rw [← hrblocks, ← hdata] at hblocks htotal
  rcases freeSlotFor_room hu hblocks with ⟨slot, hslot, hhead⟩ | ⟨hslot, hno⟩
  swap
  · rw [hslot]
    exact hnone hno
  have hp : FlushPlan sh db plan rdelPlan slot := ⟨hplan, hrplan, hslot⟩
  obtain ⟨hin, hfree⟩ := freeSlotFor_ok hslot
  have hregion := hu.slots slot (findFree_lt hfree)
  have htbl := hb.tblEnd_lt
  have hmax : U64_MAX = 2 ^ 64 - 1 := rfl
  rw [hslot, Prog.wp_ofExcept_ok, Prog.andThen_ok, Prog.wp_bind]
  by_cases hfits : Fits sh db.table.points db.table.rdels
  · -- The blocks are written; only a counter can stop the commit.
    obtain ⟨d₁, hrun, hd₁⟩ := @writeFlushTable_ok sh Db db d db.table (db.slots.slotBase slot) ht hfits hd plan rdelPlan hdata
      (bloomK (sh.BLOOM_BYTES * 8) plan.entryCount) (by omega)
    rw [Prog.wp, hrun, Prog.andThen_ok]
    have hend : ∀ {o : Outcome Error Unit}, db.Flushes sh o → (db.Flushes sh o ↔
        (db.table.isEmpty = false → db.RoomForTable sh → Fits sh db.table.points db.table.rdels)) :=
      fun ho => ⟨fun _ _ _ => hfits, fun _ => ho⟩
    split
    · rename_i hid
      exact hend ⟨by simp [Prog.throw], fun h => absurd h.2.1 (by omega)⟩
    · rename_i hid
      refine Prog.wp_mono (finishFlush_healthy hu hb hd₁ hp (not_le.mp hl0) (by omega) htotal ?_) fun o _ _ ho => hend ho
      rw [hentries]
      exact ht.entryCount_le
  · have hroom : db.RoomForTable sh := ⟨not_le.mp hl0, hhead, by simp [hfree]⟩
    have hlarge := writeFlushTable_too_large (s := db) ht hfits hd (by omega : db.slots.slotBase slot ≤ U64_MAX) plan rdelPlan
      (bloomK (sh.BLOOM_BYTES * 8) plan.entryCount)
    have hrun := eq_prod (writeFlushTable sh db.table (db.slots.slotBase slot)
      (bloomK (sh.BLOOM_BYTES * 8) plan.entryCount) plan rdelPlan db d)
    rw [hlarge] at hrun
    rw [Prog.wp, hrun, Prog.andThen_err]
    exact ⟨fun h => absurd rfl h.1, fun h => absurd (h hne' hroom) hfits⟩

/-- On a device without errors a flush never finds its table too large, and returns where there is room for the table and the
counters are not used up, just if a log without room leaves no room for a table either, and a memtable that could be flushed
fits the limits of one table. -/
theorem Reached.flush_ok_iff (hb : (cfg.resolveLayout sh).Bounded) (h : Reached sh cfg db) (hopen : db.opened = true)
    (hd : Healthy d) : db.Flushes sh (Db.flush sh db d).1 ↔
      (db.RoomForTable sh ∧ db.CountersLeft → db.StageRoom) ∧
        (db.StageRoom → db.table.isEmpty = false → db.RoomForTable sh → Fits sh db.table.points db.table.rdels) := by
  have hheld := h.held hb
  have hu := hheld.usable hopen
  obtain ⟨hcommit, hfull⟩ := @commit_healthy db d hd
  have hw : (Db.flush sh).wp (fun o _ _ => db.Flushes sh o ↔
      (db.RoomForTable sh ∧ db.CountersLeft → db.StageRoom) ∧
        (db.StageRoom → db.table.isEmpty = false → db.RoomForTable sh → Fits sh db.table.points db.table.rdels)) db d := by
    rw [flush_eq, Prog.wp_bind, wp_ensureOpen, if_pos hopen, Prog.andThen_ok, Prog.wp_bind]
    by_cases hstage : db.StageRoom
    · obtain ⟨w, d', hrun, hd', hw⟩ := hcommit hstage
      have hend : db.wal.walEnd < 2 ^ 64 := hheld.walEnd ▸ hb.walEnd_lt
      have hbd : db.cfg.Bounded := hheld.cfg ▸ hb
      rw [Prog.wp, hrun, Prog.andThen_ok]
      refine Prog.wp_mono (flushTail_healthy (hu.committed hend hw) hbd hd') fun o _ _ ho => ?_
      exact ho.trans ⟨fun hfits => ⟨fun _ => hstage, fun _ => hfits⟩, fun hfits => hfits.2 hstage⟩
    · have hrun := eq_prod (onWal WalWriter.commit db d)
      rw [hfull hstage] at hrun
      rw [Prog.wp, hrun, Prog.andThen_err]
      exact ⟨fun ho => ⟨fun hroom => absurd (ho.2 hroom) (by simp), fun hs => absurd hs hstage⟩,
        fun ho => ⟨by simp, fun hroom => absurd (ho.1 hroom) hstage⟩⟩
  exact hw

/-- The handle and the device behind a call. -/
def behind (c : Call sh) (s : Db × Device) : Db × Device := (c.run s.1 s.2).2

theorem reached_behind (h : Reached sh cfg db) (d : Device) (c : Call sh) (ho : (c.run db d).1 ≠ .cut) :
    Reached sh cfg (behind c (db, d)).1 := h.call c (eq_prod (c.run db d)) ho

/-- A put, and the flush of its entry. -/
theorem Reached.flush_ok_iff_put :
    Flushes .roomy (behind (.put [1] [2] : Call .roomy) (openedOn .roomy 60, Sys.zeroed)).1
      (Db.flush .roomy (behind (.put [1] [2] : Call .roomy) (openedOn .roomy 60, Sys.zeroed)).1 Sys.zeroed).1 := by
  have hreached : Reached .roomy (.wholeDevice 60) (openedOn .roomy 60) :=
    reached_openedOn rfl (by decide +kernel) (by decide +kernel)
  have hput := reached_behind hreached Sys.zeroed (.put [1] [2]) (by decide +kernel)
  have hopen : (behind (.put [1] [2] : Call .roomy) (openedOn .roomy 60, Sys.zeroed)).1.opened = true := by decide +kernel
  have hd : Healthy Sys.zeroed := rfl
  apply (Reached.flush_ok_iff Sys.bounded_wholeDevice hput hopen hd).mpr
  refine ⟨fun _ => Or.inl ?_, fun _ _ _ => ⟨?_, ?_, ?_⟩⟩
  all_goals decide +kernel

/-- A put with a key of maximal length, and a second one. -/
def longPut : Db × Device :=
  behind (.put (List.replicate 240 1) (List.replicate 16 7) : Call .wide) (openedOn .wide 80, Sys.zeroed)

def longPuts : Db × Device :=
  behind (.put (List.replicate 240 2) (List.replicate 16 7) : Call .wide) (longPut.1, longPut.2)

theorem reached_longPuts : Reached .wide (.wholeDevice 80) longPuts.1 := by
  have hreached : Reached .wide (.wholeDevice 80) (openedOn .wide 80) :=
    reached_openedOn rfl (by decide +kernel) (by decide +kernel)
  have hone : Reached .wide (.wholeDevice 80) longPut.1 :=
    reached_behind hreached Sys.zeroed (.put (List.replicate 240 1) (List.replicate 16 7)) (by decide +kernel)
  exact reached_behind hone longPut.2 (.put (List.replicate 240 2) (List.replicate 16 7)) (by decide +kernel)

/-- Two entries with keys of maximal length take two blocks, and two index entries of them do not fit one: the memtable is
never flushed. -/
theorem Reached.flush_too_large : Reached .wide (.wholeDevice 80) longPuts.1 ∧ longPuts.1.opened = true ∧
    longPuts.2.fates = [] ∧ longPuts.1.table.len = 2 ∧ longPuts.1.RoomForTable .wide ∧ longPuts.1.CountersLeft ∧
    (Db.flush .wide longPuts.1 longPuts.2).1 = .err .tableTooLarge := by
  refine ⟨reached_longPuts, by decide +kernel, by decide +kernel, by decide +kernel, ⟨?_, ?_, ?_⟩, ⟨?_, ?_⟩, ?_⟩
  all_goals decide +kernel

end Db

end Horton
