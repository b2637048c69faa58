import Horton.Db.Bounded
import Horton.Db.Healthy
import Horton.Db.Replayed
import Horton.Db.Staged
import Horton.Manifest.Agreement

/-!
# The handles a run can reach

Every step of a handle is taken over a device of its own, with blocks and answers of any kind: what the device did between
two calls is left open.  `Usable` is the invariant of an open handle.  A write that returns an error leaves everything a read
looks at as it was (`Reached.write_error`).
-/

namespace Horton

open BlockDev

variable {sh : Shape} {cfg : Config}

/-- The slots that hold a table. -/
def SlotMap.marked (s : SlotMap) : Nat := (List.range s.slots).countP (bit s.used)

namespace SlotMap

variable {s s' : SlotMap} {slot : Nat}

/-- One more slot is taken. -/
private theorem countP_bit_or (used : Nat) {n : Nat} (hslot : slot < n) (hn : n ≤ 64) (hfree : bit used slot = false) :
    (List.range n).countP (bit (used ||| 2 ^ slot)) = (List.range n).countP (bit used) + 1 := by
  have hother : ∀ i, i ≠ slot → bit (used ||| 2 ^ slot) i = bit used i := by
    intro i hi
    simp [bit, Nat.testBit_or, Nat.testBit_two_pow_of_ne (Ne.symm hi)]
  induction n with
  | zero => omega
  | succ n ih =>
    rw [List.range_succ, List.countP_append, List.countP_append]
    by_cases hlast : slot = n
    · subst hlast
      have hbelow : (List.range slot).countP (bit (used ||| 2 ^ slot)) = (List.range slot).countP (bit used) :=
        List.countP_congr fun i hi => by rw [hother i (by have := List.mem_range.mp hi; omega)]
      have hset : bit (used ||| 2 ^ slot) slot = true := by
        simp [bit, Nat.testBit_or, show slot < 64 by omega]
      simp [hbelow, hset, hfree]
    · rw [ih (by omega) (by omega)]
      simp only [List.countP_singleton, hother n (Ne.symm hlast)]
      omega

theorem marked_markUsed (hn : s.slots ≤ 64) (h : s.markUsed slot = some s') : s'.marked = s.marked + 1 := by
  unfold markUsed at h
  split at h
  · cases h
  · rename_i hfree
    simp only [not_or, not_le, Bool.not_eq_true, ge_iff_le] at hfree
    obtain rfl := Option.some.inj h
    exact countP_bit_or s.used hfree.1 hn hfree.2

theorem findFree_free (h : s.findFree = some slot) : bit (s.used ||| s.reserved) slot = false := by
  have := List.find?_some h
  simpa using this

theorem marked_claim (hn : s.slots ≤ 64) (h : s.findFree = some slot) : (s.claim slot).marked = s.marked + 1 := by
  have hlt := Db.findFree_lt h
  have hfree : bit s.used slot = false := by
    have := findFree_free h
    simp only [bit, Nat.testBit_or, Bool.and_eq_false_iff, Bool.or_eq_false_iff] at this ⊢
    tauto
  rw [claim, if_pos hlt]
  exact countP_bit_or s.used hlt hn hfree

theorem marked_setHintAfter (s : SlotMap) (slot : Nat) : (s.setHintAfter slot).marked = s.marked := by
  unfold setHintAfter
  split <;> rfl

end SlotMap

/-- A memtable without entries has used nothing of its arena. -/
theorem MemTable.arena_replayAll {t t' : MemTable} {rs : List Record} (ht : t.len = 0 → t.arena = [])
    (h : replayAll sh t rs = .ok t') : t'.len = 0 → t'.arena = [] := by
  intro h0
  have hlen := Db.len_replayAll h
  obtain rfl : rs = [] := List.length_eq_zero_iff.mp (by omega)
  obtain rfl := Except.ok.inj h
  exact ht h0

namespace Db

/-- What the operations on tables and the snapshots leave of an open handle: they keep to the manifest and the slots, and
give every table of the manifest a slot of its own. -/
structure Beside (sh : Shape) (db db' : Db) : Prop where
  wal : db'.wal = db.wal
  table : db'.table = db.table
  cfg : db'.cfg = db.cfg
  opened : db'.opened = db.opened
  slots : db.slots.SameLayout db'.slots
  nextSeq : db'.nextSeq ≤ U64_MAX
  manifest : db'.manifest.WF sh
  placed : db'.manifest.live ≤ db'.slots.marked

/-- The handles of a configuration.  A power cut takes the handle; a manifest that `open` finds was written by one of them,
so its WAL head lies in the log region. -/
inductive Reached (sh : Shape) (cfg : Config) : Db → Prop
  | new : Reached sh cfg (Db.new sh cfg)
  | call {db db' o d d'} (h : Reached sh cfg db) (c : Call sh) (hrun : c.run db d = (o, db', d')) (ho : o ≠ .cut) :
      Reached sh cfg db'
  | flush {db db' o d d'} (h : Reached sh cfg db) (hrun : Db.flush sh db d = (o, db', d')) (ho : o ≠ .cut) :
      Reached sh cfg db'
  | open_ {db db' o d d'} (h : Reached sh cfg db) (hlen : ∀ i, (d.blocks i).length = sh.BLOCK)
      (hhead : ∀ m, (Manifest.recoverFrom sh db.cfg.manifestLayout).eval d.blocks = .ok (m, false) → db.cfg.walStart ≤ m.walHead)
      (hrun : Db.open_ sh db d = (o, db', d')) (ho : o ≠ .cut) : Reached sh cfg db'
  | beside {db db'} (h : Reached sh cfg db) (hopen : db.opened = true) (hb : db.Beside sh db') : Reached sh cfg db'

/-- An open handle. -/
structure Usable (sh : Shape) (db : Db) : Prop where
  regions : db.cfg.Regions sh
  stage : ∃ rs, StageOk sh.BLOCK db.wal rs
  shut : db.wal.groupOpen = false
  next_ge : db.cfg.walStart ≤ db.wal.nextBlock
  next_lt : db.wal.nextBlock < 2 ^ 64
  nextSeq : db.nextSeq ≤ U64_MAX
  slots : db.SlotsInside
  slotBlocks : Config.MIN_SLOT_BLOCKS sh ≤ db.slots.slotBlocks
  slotCount : db.slots.slots = Config.SLOTS sh
  table : db.table.Bounded sh
  arena : db.table.len = 0 → db.table.arena = []
  manifest : db.manifest.WF sh
  placed : db.manifest.live ≤ db.slots.marked

/-- A handle of the configuration `c`, open or not. -/
structure Held (sh : Shape) (c : Config) (db : Db) : Prop where
  cfg : db.cfg = c
  walStart : db.wal.walStart = c.walStart
  walEnd : db.wal.walEnd = c.walEnd
  stage : db.wal.stage.length = sh.BLOCK
  usable : db.opened = true → db.Usable sh

variable {db db' : Db} {d d' : Device}

theorem held_new (sh : Shape) (cfg : Config) : (Db.new sh cfg).Held sh (cfg.resolveLayout sh) :=
  ⟨rfl, rfl, rfl, Bytes.length_zeros _, by simp [Db.new]⟩

theorem Usable.sized (h : db.Usable sh) (hb : db.cfg.Bounded) : db.Sized := by
  have hseq := h.nextSeq
  refine ⟨hb, h.next_lt, by rw [U64_MAX] at hseq; omega, ?_⟩
  intro e he
  exact (h.table.entry e he).seq_lt

/-! ### Calls -/

theorem Held.call {c : Config} (h : db.Held sh c) (hb : c.Bounded) (k : Call sh) {o : Outcome Error Nat}
    (hrun : k.run db d = (o, db', d')) (ho : o ≠ .cut) : db'.Held sh c := by
  cases hopen : db.opened with
  | false =>
    obtain ⟨-, rfl, -⟩ := Prog.wp_run (Call.closed hopen k d) hrun
    exact h
  | true =>
    have hu := h.usable hopen
    obtain ⟨rs, hst⟩ := hu.stage
    obtain ⟨hk, -⟩ := Prog.wp_run (Call.staged hopen hst k) hrun ho
    have hshut := Prog.wp_run (Call.shut hst hu.shut k) hrun ho
    obtain ⟨w, n, t, rfl⟩ := hk.frame
    obtain ⟨ss, hst'⟩ := hk.stage
    refine ⟨h.cfg, hk.walStart.trans h.walStart, hk.walEnd.trans h.walEnd, hst'.length_stage, fun _ => ?_⟩
    have hnext := hk.next_le
    have hend := hb.walEnd_lt
    rw [← h.walEnd] at hend
    refine { hu with
      stage := hk.stage
      shut := hshut
      next_ge := hu.next_ge.trans hk.next
      next_lt := lt_of_le_of_lt hnext (max_lt hu.next_lt hend)
      nextSeq := hk.nextSeq hu.nextSeq
      table := ?_
      arena := ?_ }
    · rcases hk.table with heq | ⟨rs', hrs', hreplay⟩
      · exact heq ▸ hu.table
      · exact MemTable.bounded_replayAll hu.table hrs' hreplay
    · rcases hk.table with heq | ⟨rs', hrs', hreplay⟩
      · exact heq ▸ hu.arena
      · exact MemTable.arena_replayAll hu.arena hreplay

/-! ### Flushes -/

private theorem inOrder_low {m : Manifest} {e : ManifestEdit} (h : ∀ x ∈ e.added, x.1 = 0) : m.InOrder e := by
  intro x hx hpos
  rw [h x hx] at hpos
  omega

private theorem live_view_le {m : Manifest} (hm : m.WF sh) (e : ManifestEdit) :
    (m.view sh e).live ≤ m.live + e.added.toList.length := by
  rw [Manifest.live_view hm e]
  have hcount : (List.range m.live).countP (fun p => !bit e.removed p) ≤ m.live := by
    have := (List.range m.live).countP_le_length (p := fun p => !bit e.removed p)
    rwa [List.length_range] at this
  rcases e.added with _ | ⟨level, a⟩
  · exact hcount
  · dsimp only
    simp only [Option.toList_some, List.length_singleton]
    split <;> omega

theorem wrapEdit_view (hu : db.Usable sh) (hb : db.cfg.Bounded) {o : Outcome Error Unit} {m : Manifest}
    (hc : Manifest.commitEdit sh db.cfg.manifestLayout db.wrapEdit db.manifest d = (o, m, d')) :
    m.WF sh ∧ m.live ≤ db.slots.marked := by
  have he : db.wrapEdit.WF sh := wrapEdit_wf (hu.sized hb)
  have hord : db.manifest.InOrder db.wrapEdit := inOrder_low (by intro x hx; cases hx)
  have hp := Prog.wp_run (Manifest.commitEdit_view hu.manifest he (by intro s hs; cases hs) hord d) hc
  cases o with
  | ok u =>
    obtain ⟨hacc, rfl⟩ := hp
    exact ⟨Manifest.view_wf hu.manifest he hacc, (live_view_le hu.manifest _).trans hu.placed⟩
  | err x => exact hp ▸ ⟨hu.manifest, hu.placed⟩
  | cut => exact hp ▸ ⟨hu.manifest, hu.placed⟩
  | dropped => exact hp ▸ ⟨hu.manifest, hu.placed⟩

theorem flushEdit_view (hu : db.Usable sh) (hb : db.cfg.Bounded) {plan : Sstable.TablePlan} {rdelPlan : Sstable.RdelPlan}
    {slot : Nat} (hp : FlushPlan sh db plan rdelPlan slot) (hid : db.manifest.nextTableId + 1 ≤ U32_MAX) {tref : TableRef}
    (htref : flushTref sh db.cfg.nodeId db.manifest.nextTableId (db.slots.slotBase slot)
      (rdelPlan.blocks + plan.dataBlocks + 3) plan rdelPlan = .ok tref) {e : ManifestEdit} (he : db.flushEdit tref = .ok e)
    {o : Outcome Error Unit} {m : Manifest}
    (hc : Manifest.commitEdit sh db.cfg.manifestLayout e db.manifest d = (o, m, d')) :
    m.WF sh ∧ (o = .ok () → m.live ≤ db.slots.marked + 1) ∧ (o ≠ .ok () → m = db.manifest) := by
  have hsized := hu.sized hb
  have hwf := flushEdit_wf hsized (flushTref_wf hsized hp hu.slots hid htref) hid he
  have heq := flushEdit_ok he
  have hord : db.manifest.InOrder e := inOrder_low (by rw [heq]; rintro x hx; obtain rfl := Option.some.inj hx; rfl)
  have hst : db.manifest.StampsOne e := by
    rw [heq]
    intro s hs
    cases hs
  have hend := Prog.wp_run (Manifest.commitEdit_view hu.manifest hwf hst hord d) hc
  cases o with
  | ok u =>
    obtain ⟨hacc, rfl⟩ := hend
    refine ⟨Manifest.view_wf hu.manifest hwf hacc, fun _ => ?_, fun hne => absurd rfl hne⟩
    have hone : e.added.toList.length = 1 := by rw [heq]; rfl
    have hlive := live_view_le hu.manifest e
    rw [hone] at hlive
    exact hlive.trans (Nat.succ_le_succ hu.placed)
  | err x => exact ⟨hend ▸ hu.manifest, (fun hok => by cases hok), fun _ => hend⟩
  | cut => exact ⟨hend ▸ hu.manifest, (fun hok => by cases hok), fun _ => hend⟩
  | dropped => exact ⟨hend ▸ hu.manifest, (fun hok => by cases hok), fun _ => hend⟩

/-- The writer after a flush is the one before, or starts the region over. -/
private theorem usable_wrapped (hu : db.Usable sh) (hb : db.cfg.Bounded) (hst : StageOk sh.BLOCK db.wal []) {m : Manifest}
    {slots : SlotMap} {t : MemTable} (hslots : db.slots.SameLayout slots) (ht : t.Bounded sh)
    (harena : t.len = 0 → t.arena = []) (hm : m.WF sh)
    (hplaced : m.live ≤ slots.marked) (wraps : Bool) :
    Usable sh { db with
      manifest := m
      slots := slots
      table := t
      wal := if wraps then db.wal.resetTo db.cfg.walStart else db.wal } := by
  obtain ⟨h1, h2, h3⟩ := hslots
  have hin : Db.SlotsInside { db with slots := slots } := by
    intro i hi
    rw [SlotMap.slotBase, h1, h2]
    exact hu.slots i (h3 ▸ hi)
  cases wraps with
  | false =>
    exact { hu with
      slots := hin, slotBlocks := h2 ▸ hu.slotBlocks, slotCount := h3 ▸ hu.slotCount, table := ht, arena := harena
      manifest := hm, placed := hplaced }
  | true =>
    exact { hu with
      stage := ⟨[], hst.resetTo _⟩, next_ge := le_rfl, next_lt := hb.walStart_lt
      slots := hin, slotBlocks := h2 ▸ hu.slotBlocks, slotCount := h3 ▸ hu.slotCount, table := ht, arena := harena
      manifest := hm, placed := hplaced }

/-- However a flush ends, with nothing staged the handle stays usable. -/
theorem FlushEnd.held {c : Config} (h : db.Held sh c) (hopen : db.opened = true) (hb : c.Bounded)
    (hst : StageOk sh.BLOCK db.wal []) {o : Outcome Error Unit} (hend : FlushEnd sh db d o db' d') : db'.Held sh c := by
  have hu := h.usable hopen
  have hbd : db.cfg.Bounded := h.cfg ▸ hb
  have h64 : db.slots.slots ≤ 64 := hu.slotCount ▸ sh.assertSlots.2.2
  have hstage : ∀ wraps : Bool, (if wraps then db.wal.resetTo db.cfg.walStart else db.wal).stage.length = sh.BLOCK := by
    intro wraps
    cases wraps <;> exact h.stage
  have hsame : ∀ {m : Manifest}, m.WF sh → m.live ≤ db.slots.marked → Held sh c { db with manifest := m } := by
    intro m hm hplaced
    exact ⟨h.cfg, h.walStart, h.walEnd, h.stage, fun _ =>
      usable_wrapped hu hbd hst ⟨rfl, rfl, rfl⟩ hu.table hu.arena hm hplaced false⟩
  cases hend with
  | early hk ho => exact h
  | clean hf he hw => exact h
  | wrap hf he hw hc =>
    rename_i m
    obtain ⟨hm, hplaced⟩ := wrapEdit_view hu hbd hc
    cases o with
    | ok u =>
      exact ⟨h.cfg, h.walStart, h.walEnd, h.stage, fun _ =>
        usable_wrapped hu hbd hst ⟨rfl, rfl, rfl⟩ hu.table hu.arena hm hplaced true⟩
    | err x => exact hsame hm hplaced
    | cut => exact hsame hm hplaced
    | dropped => exact hsame hm hplaced
  | table hf hp hrun hid htref he hc =>
    rename_i m d₁ plan rdelPlan slot tref e
    obtain ⟨hm, hplaced, hkept⟩ := flushEdit_view hu hbd hp hid htref he hc
    cases o with
    | ok u =>
      have hfree := (freeSlotFor_ok hp.slot).2
      have hmarked := SlotMap.marked_claim h64 hfree
      refine ⟨h.cfg, ?_, ?_, hstage db.wraps, fun _ => ?_⟩
      · exact (by cases db.wraps <;> rfl : (if db.wraps then db.wal.resetTo db.cfg.walStart else db.wal).walStart =
          db.wal.walStart).trans h.walStart
      · exact (by cases db.wraps <;> rfl : (if db.wraps then db.wal.resetTo db.cfg.walStart else db.wal).walEnd =
          db.wal.walEnd).trans h.walEnd
      · exact usable_wrapped hu hbd hst (SlotMap.sameLayout_claim db.slots slot) (MemTable.bounded_clear _) (fun _ => rfl) hm
          (by rw [hmarked]; exact hplaced rfl) db.wraps
    | err x => exact hsame hm (by rw [hkept (by simp)]; exact hu.placed)
    | cut => exact hsame hm (by rw [hkept (by simp)]; exact hu.placed)
    | dropped => exact hsame hm (by rw [hkept (by simp)]; exact hu.placed)

/-- The handle behind the commit of its staged records. -/
theorem Usable.committed (hu : db.Usable sh) (hend : db.wal.walEnd < 2 ^ 64) {w : WalWriter}
    (hw : w = db.wal ∨ db.wal.nextBlock < db.wal.walEnd ∧ w = db.wal.wrote) : ({ db with wal := w } : Db).Usable sh := by
  rcases hw with rfl | ⟨hlt, rfl⟩
  · exact hu
  · obtain ⟨rs, hst⟩ := hu.stage
    exact { hu with
      stage := ⟨[], hst.wrote⟩, next_ge := hu.next_ge.trans (Nat.le_succ _), next_lt := lt_of_le_of_lt hlt hend }

theorem Held.flush {c : Config} (h : db.Held sh c) (hb : c.Bounded) {o : Outcome Error Unit}
    (hrun : Db.flush sh db d = (o, db', d')) : db'.Held sh c := by
  cases hopen : db.opened with
  | false =>
    obtain ⟨-, rfl, -⟩ := Prog.wp_run (closed_bind hopen _ d) hrun
    exact h
  | true =>
    have hu := h.usable hopen
    obtain ⟨rs, hst⟩ := hu.stage
    by_cases hrs : rs = []
    · subst hrs
      exact (Prog.wp_run (flush_spec hopen hst hu.slots) hrun).held h hopen hb hst
    have hwrote : Held sh c { db with wal := db.wal.wrote } ∨ ¬ db.wal.nextBlock < db.wal.walEnd := by
      by_cases hroom : db.wal.nextBlock < db.wal.walEnd
      · have hend : db.wal.walEnd < 2 ^ 64 := h.walEnd ▸ hb.walEnd_lt
        exact Or.inl ⟨h.cfg, h.walStart, h.walEnd, hst.wrote.length_stage, fun _ => hu.committed hend (.inr ⟨hroom, rfl⟩)⟩
      · exact Or.inr hroom
    have hend : (Db.flush sh).wp (fun _ db' _ => db'.Held sh c) db d := by
      rw [flush_eq, Prog.wp_bind, wp_ensureOpen, if_pos hopen, Prog.andThen_ok, Prog.wp_bind, onWal, Prog.wp_zoom]
      refine Prog.wp_mono (commit_spec hst hrs) ?_
      rintro o w' d' (⟨rfl, rfl, rfl⟩ | ⟨hroom, ⟨k, rfl, rfl, hf⟩ | ⟨hok, rfl, rfl, hf⟩⟩)
      · exact h
      · have hsealed : Held sh c { db with wal := db.wal.sealed } :=
          ⟨h.cfg, h.walStart, h.walEnd, hst.sealed.length_stage, fun _ => { hu with stage := ⟨rs, hst.sealed⟩ }⟩
        rcases hf with ⟨-, rfl⟩ | ⟨-, rfl⟩ | ⟨-, rfl⟩ <;> exact hsealed
      · have hheld := hwrote.resolve_right (not_not.mpr hroom)
        rcases hf with ⟨hf, rfl⟩ | ⟨k, ⟨-, rfl⟩ | ⟨-, rfl⟩ | ⟨-, rfl⟩⟩
        · rw [Prog.andThen_ok]
          refine Prog.wp_mono (@flushTail_spec sh { db with wal := db.wal.wrote } _ hf hu.slots) ?_
          intro o db' d' hend
          exact hend.held hheld hopen hb hst.wrote
        · exact hheld
        · exact hheld
        · exact hheld
    exact Prog.wp_run hend hrun

/-! ### `open` -/

/-- Every table of the manifest takes a slot of its own. -/
private theorem marked_markTables {ts : List TableRef} {slots slots' : SlotMap} {newest newest' : Option (Nat × Nat)}
    (hn : slots.slots ≤ 64) (h : markTables ts slots newest = .ok (slots', newest')) :
    slots'.marked = slots.marked + ts.length := by
  induction ts generalizing slots newest with
  | nil =>
    cases h
    rfl
  | cons t ts ih =>
    rw [markTables] at h
    cases h1 : slots.slotOf t.firstBlock t.blockCount with
    | none => rw [h1] at h; cases h
    | some slot =>
      rw [h1, Option.elim_some] at h
      replace h : (((slots.markUsed slot).elim (.error .corruptManifest) .ok : Except Error SlotMap) >>= fun s₁ =>
        markTables ts s₁ (if newest.all (t.id > ·.1) then some (t.id, slot) else newest)) = .ok (slots', newest') := h
      cases h2 : slots.markUsed slot with
      | none => rw [h2] at h; cases h
      | some s₁ =>
        rw [h2] at h
        have hlay := SlotMap.sameLayout_markUsed h2
        have hone := SlotMap.marked_markUsed hn h2
        rw [ih (hlay.2.2 ▸ hn) h, hone, List.length_cons]
        omega

theorem marked_rebuildSlots {m : Manifest} {slots slots' : SlotMap} (hn : slots.slots ≤ 64) (hused : slots.used = 0)
    (h : rebuildSlots m slots = .ok slots') : slots'.marked = m.live := by
  have hnone : slots.marked = 0 := by
    rw [SlotMap.marked, hused, List.countP_eq_zero]
    intro i hi
    simp [bit]
  rw [rebuildSlots] at h
  cases hm : markTables m.tables slots none with
  | error e => rw [hm] at h; cases h
  | ok x =>
    obtain ⟨s, newest⟩ := x
    rw [hm] at h
    have hs := marked_markTables hn hm
    rw [hnone, Nat.zero_add, Manifest.tables, List.length_flatten] at hs
    obtain rfl := Except.ok.inj h
    cases newest with
    | none => exact hs
    | some n => exact (SlotMap.marked_setHintAfter s n.2).trans hs

theorem Opened.usable (hcfg : db'.cfg = db.cfg) (h : Opened sh db d db') (hb : db.cfg.Bounded)
    (hold : db.wal.stage.length = sh.BLOCK) (hlen : ∀ i, (d.blocks i).length = sh.BLOCK)
    (hhead : ∀ m, (Manifest.recoverFrom sh db.cfg.manifestLayout).eval d.blocks = .ok (m, false) → db.cfg.walStart ≤ m.walHead) :
    db'.Usable sh := by
  obtain ⟨⟨m, fresh⟩, hrec, hm⟩ := h.recovered
  obtain ⟨s, hlay, hre⟩ := h.slots
  obtain ⟨stage, maxSeq, hwal, hstage, -, hmax, hnext⟩ := h.wal
  have hwf₀ := Manifest.recoverFrom_wf hlen hrec
  have hwf : db'.manifest.WF sh ∧ db.cfg.walStart ≤ db'.manifest.walHead := by
    rw [hm, firstHead]
    cases fresh with
    | true => exact ⟨{ hwf₀ with walHead_lt := hb.walStart_lt }, le_rfl⟩
    | false => exact ⟨hwf₀, hhead m hrec⟩
  obtain ⟨hwf, hge⟩ := hwf
  obtain ⟨hrs, hlt, hfrom, hto⟩ := @SysOk.walk_forall d (fun r => r.WF ∧ r.len ≤ sh.BLOCK) db'.manifest.walHead
    db.cfg.walEnd db'.manifest.flushedSeq (by
      intro i hi hlt r hr
      obtain ⟨o, ho⟩ := decodesAt_of_mem_summary hr
      have hle := decodesAt_lt ho
      rw [hlen i] at hle
      exact ⟨(decodesAt_iff.mp ho).1, by omega⟩) fun r hr => hr.1.seq_lt
  have hslots := sameLayout_rebuildSlots hre
  have hfield : s.used = 0 ∧ s.slots = Config.SLOTS sh ∧ Config.MIN_SLOT_BLOCKS sh ≤ s.slotBlocks := by
    unfold SlotMap.layout at hlay
    split at hlay
    · cases hlay
    dsimp only at hlay
    split at hlay
    · cases hlay
    rename_i hmin
    obtain rfl := Option.some.inj hlay
    exact ⟨rfl, rfl, by simp only [not_or, not_lt] at hmin; exact hmin.2⟩
  have hstage' : stage.length = sh.BLOCK := by
    rcases hstage with rfl | ⟨i, -, -, rfl⟩
    · exact hold
    · exact hlen i
  refine
    { regions := hcfg ▸ Config.regions_of_check h.regions
      stage := ⟨[], hwal ▸ stageOk_recovered hstage' _ _ _ _⟩
      shut := by rw [hwal]
      next_ge := ?_
      next_lt := ?_
      nextSeq := ?_
      slots := slotsInside_of_opened h hcfg
      slotBlocks := hslots.2.1 ▸ hfield.2.2
      slotCount := hslots.2.2.trans hfield.2.1
      table := MemTable.bounded_replayAll (MemTable.bounded_new sh) hrs h.table
      arena := MemTable.arena_replayAll (fun _ => rfl) h.table
      manifest := hwf
      placed := (marked_rebuildSlots (hfield.2.1 ▸ sh.assertSlots.2.2) hfield.1 hre).ge }
  · rw [hwal, hcfg]
    exact hge.trans hfrom
  · rw [hwal]
    exact lt_of_le_of_lt hto (max_lt hwf.walHead_lt hb.walEnd_lt)
  · have h1 : maxSeq < 2 ^ 64 := lt_of_le_of_lt hmax (max_lt hlt hwf.flushedSeq_lt)
    have h2 := max_lt (max_lt h1 hwf.seqHigh_lt) hwf.maxSeq_lt
    rw [hnext, U64_MAX]
    omega

theorem Held.open_ {c : Config} (h : db.Held sh c) (hb : c.Bounded) (hlen : ∀ i, (d.blocks i).length = sh.BLOCK)
    (hhead : ∀ m, (Manifest.recoverFrom sh db.cfg.manifestLayout).eval d.blocks = .ok (m, false) → db.cfg.walStart ≤ m.walHead)
    {o : Outcome Error OpenReport} (hrun : Db.open_ sh db d = (o, db', d')) : db'.Held sh c := by
  obtain ⟨-, hcfg, hws, hwe, hstage, hend⟩ := Prog.wp_run (open_spec (h.walEnd.trans (by rw [h.cfg])) d) hrun
  have hlen' : db'.wal.stage.length = sh.BLOCK := by
    rcases hstage with heq | ⟨i, -, -, heq⟩
    · rw [heq]
      exact h.stage
    · rw [heq]
      exact hlen i
  refine ⟨hcfg.trans h.cfg, hws.trans h.walStart, hwe.trans h.walEnd, hlen', fun hopen => ?_⟩
  cases o with
  | ok r => exact hend.usable hcfg (h.cfg ▸ hb) h.stage hlen hhead
  | err e => exact absurd (hopen.symm.trans hend.1) (by simp)
  | cut => exact absurd (hopen.symm.trans hend.1) (by simp)
  | dropped => exact absurd (hopen.symm.trans hend.1) (by simp)

/-! ### Everything else -/

theorem Held.beside {c : Config} (h : db.Held sh c) (hopen : db.opened = true) (hb : db.Beside sh db') : db'.Held sh c := by
  have hu := h.usable hopen
  obtain ⟨h1, h2, h3⟩ := hb.slots
  refine ⟨hb.cfg.trans h.cfg, hb.wal ▸ h.walStart, hb.wal ▸ h.walEnd, hb.wal ▸ h.stage, fun _ => ?_⟩
  refine
    { regions := hb.cfg ▸ hu.regions, stage := hb.wal ▸ hu.stage, shut := hb.wal ▸ hu.shut
      next_ge := by rw [hb.cfg, hb.wal]; exact hu.next_ge
      next_lt := hb.wal ▸ hu.next_lt, nextSeq := hb.nextSeq, slots := ?_, slotBlocks := h2 ▸ hu.slotBlocks
      slotCount := h3 ▸ hu.slotCount, table := hb.table ▸ hu.table
      arena := hb.table ▸ hu.arena, manifest := hb.manifest, placed := hb.placed }
  intro i hi
  rw [hb.cfg, SlotMap.slotBase, h1, h2]
  exact hu.slots i (h3 ▸ hi)

/-- Every handle of a run keeps the invariant. -/
theorem Reached.held (hb : (cfg.resolveLayout sh).Bounded) (h : Reached sh cfg db) : db.Held sh (cfg.resolveLayout sh) := by
  induction h with
  | new => exact held_new sh cfg
  | call _ c hrun ho ih => exact ih.call hb c hrun ho
  | flush _ hrun _ ih => exact ih.flush hb hrun
  | open_ _ hlen hhead hrun _ ih => exact ih.open_ hb hlen hhead hrun
  | beside _ hopen hbeside ih => exact ih.beside hopen hbeside

/-! ### Writes that fail -/

/-- The blocks that hold tables or copies of the manifest are outside the rest of the log. -/
theorem Usable.outsideLog (h : db.Usable sh) (hend : db.wal.walEnd = db.cfg.walEnd) {j : Nat}
    (hj : db.cfg.InTable j ∨ Manifest.InCopies sh db.cfg.manifestLayout j) : db.OutsideLog j := by
  rintro ⟨h1, h2⟩
  have hwal : db.cfg.InWal j := ⟨h.next_ge.trans h1, hend ▸ h2⟩
  rcases hj with hj | hj
  · exact h.regions.wal_table j hwal hj
  · exact h.regions.copies_wal j hj hwal

/-- A write that returns an error leaves the handle as it was but for the writer and the counter, and every block that a read
or the next `open` finds a table or the manifest in; unless a block write was reported, the counter and the staged bytes are
the same, too.  Whatever passed the check up front can be inserted. -/
theorem Reached.write_error (hb : (cfg.resolveLayout sh).Bounded) (h : Reached sh cfg db) :
    (∀ (c : Call sh) (d : Device) (e : Error) (db' : Db) (d' : Device), c.run db d = (.err e, db', d') →
      (∃ w n, db' = { db with wal := w, nextSeq := n }) ∧
        (∀ j, db.cfg.InTable j ∨ Manifest.InCopies sh db.cfg.manifestLayout j → d'.blocks j = d.blocks j) ∧
        ((db'.nextSeq = db.nextSeq ∧ db.SameStage db') ∨ db.Reported d d')) ∧
    (∀ (batch : WriteBatch sh) (seq : Nat), checkBatch sh db.table batch.ops = .ok () →
      ∃ t, insertOps sh seq batch.ops db.table = .ok t) ∧
    ∀ (m : Mutation) (seq : Nat), m.check sh db.table = .ok () → ∃ t, m.insert sh db.table seq = .ok t := by
  refine ⟨?_, ?_, fun m seq hcheck => Mutation.insert_of_check hcheck seq⟩
  · intro c d e db' d' hrun
    by_cases hopen : db.opened = true
    · have hheld := h.held hb
      have hu := hheld.usable hopen
      obtain ⟨rs, hst⟩ := hu.stage
      obtain ⟨-, hrej⟩ := Prog.wp_run (Call.staged hopen hst c) hrun (by simp)
      have hr := hrej e rfl
      obtain ⟨w, n, t, hdb⟩ := hr.kept.frame
      have ht : t = db.table := by rw [← hr.table, hdb]
      refine ⟨⟨w, n, hdb.trans (ht ▸ rfl)⟩, fun j hj => hr.blocks.blocks j (hu.outsideLog ?_ hj), hr.staged⟩
      rw [hheld.walEnd, hheld.cfg]
    · obtain ⟨-, hdb, hd⟩ := Prog.wp_run (Call.closed (by simpa using hopen) c d) hrun
      subst hdb hd
      exact ⟨⟨_, _, rfl⟩, fun _ _ => rfl, .inl ⟨rfl, rfl, rfl⟩⟩
  · intro batch seq hcheck
    obtain ⟨-, hslots, harena⟩ := checkBatch_ok hcheck
    exact insertOps_ok batch.valid hslots harena seq

theorem eq_prod {α β γ : Type} (x : α × β × γ) : x = (x.1, x.2.1, x.2.2) := rfl

/-- The handle behind the first `open` of an empty device of `n` blocks. -/
def openedOn (sh : Shape) (n : Nat) : Db := (Db.open_ sh (Db.new sh (.wholeDevice n)) Sys.zeroed).2.1

theorem reached_openedOn {n : Nat} (hblock : sh.BLOCK = 512)
    (hout : (Db.open_ sh (Db.new sh (.wholeDevice n)) Sys.zeroed).1 ≠ .cut)
    (hfresh : (match (Manifest.recoverFrom sh (Db.new sh (.wholeDevice n)).cfg.manifestLayout).eval
      Sys.zeroed.blocks with | .ok r => r.2 | _ => true) = true) : Reached sh (.wholeDevice n) (openedOn sh n) := by
  have hrun := eq_prod (Db.open_ sh (Db.new sh (.wholeDevice n)) Sys.zeroed)
  refine .open_ .new (fun _ => (Bytes.length_zeros 512).trans hblock.symm) ?_ hrun hout
  intro m hm
  rw [hm] at hfresh
  exact absurd hfresh (by simp)

/-- A put whose block write fails. -/
theorem Reached.write_error_put : ∃ db' d',
    (Call.put [1] [2] : Call .roomy).run (openedOn .roomy 60) { Sys.zeroed with fates := [.fail 3] } =
        (.err .device, db', d') ∧
      db'.table = (openedOn .roomy 60).table ∧ db'.manifest = (openedOn .roomy 60).manifest ∧
      db'.nextSeq = (openedOn .roomy 60).nextSeq ∧ (openedOn .roomy 60).SameStage db' := by
  have hreached : Reached .roomy (.wholeDevice 60) (openedOn .roomy 60) :=
    reached_openedOn rfl (by decide +kernel) (by decide +kernel)
  have herr : ((Call.put [1] [2] : Call .roomy).run (openedOn .roomy 60) { Sys.zeroed with fates := [.fail 3] }).1 =
      .err .device := by
    decide +kernel
  have hrun := eq_prod ((Call.put [1] [2] : Call .roomy).run (openedOn .roomy 60) { Sys.zeroed with fates := [.fail 3] })
  rw [herr] at hrun
  obtain ⟨⟨w, n, hdb⟩, -, hstaged⟩ := (Reached.write_error Sys.bounded_wholeDevice hreached).1 _ _ _ _ _ hrun
  refine ⟨_, _, hrun, by rw [hdb], by rw [hdb], ?_⟩
  rcases hstaged with hsame | ⟨hok, -⟩
  · exact hsame
  · exact absurd hok (by decide)

end Db

end Horton
