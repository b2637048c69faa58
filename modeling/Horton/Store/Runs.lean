import Horton.Lib.Simulation
import Horton.Scan.Agreement
import Horton.Store.Flushed
import Horton.Store.Reopened

/-!
# Runs of the store

The abstract state of a run is its log.  A call that returned adds its records, a call that the power cut met adds all of
them or none, and nothing else adds any; in every state with an open handle a read answers from the log, and so does a scan.
-/

namespace Horton

open BlockDev GroupLog Scans Simulation

variable {sh : Shape} {c cfg : Config} {s : Sys} {db db' : Db} {d d' : Device} {conts : Contents}
  {old kept log log' : List Record}

/-! ### What a handle reads -/

/-- What a buffer of `valBuf` bytes takes of an answer. -/
def fitted (valBuf : Nat) : Option Bytes → Except Error (Option Bytes)
  | none => .ok none
  | some v => if v.length > valBuf then .error (.bufferTooSmall v.length) else .ok (some v)

namespace Live

theorem scanOrder_eq (h : Live sh c db d conts old kept) : db.scanOrder sh = db.manifest.tables :=
  Db.scanOrder_eq h.stored.holds.wf.length_levels

/-- The entries of the handle are those of the log. -/
theorem entries (h : Live sh c db d conts old kept) :
    (db.entries sh conts).Perm ((old ++ kept).map Record.entry) := by
  unfold Db.entries
  rw [h.scanOrder_eq, List.map_append]
  exact (h.memtable.1.perm.append h.stored.entries).trans List.perm_append_comm

theorem dbStores (h : Live sh c db d conts old kept) (hh : HandleOk sh c db) : db.Stores sh d.blocks conts := by
  refine ⟨h.memtable.1.sorted, fun t ht => ?_, ?_, ?_⟩
  · rw [h.scanOrder_eq] at ht
    obtain ⟨hon, hw, hnode⟩ := h.stored.tables t ht
    exact ⟨hon, hw, by rw [hnode, hh.cfg]⟩
  · intro e he
    obtain ⟨r, hr, rfl⟩ := List.mem_map.mp (h.entries.mem_iff.mp he)
    rw [r.entry_seq]
    exact h.stored.pos r hr
  · refine (h.entries.pairwise_iff fun hab => hab.symm).mpr ?_
    refine List.pairwise_map.mpr (h.stored.increasing.imp fun {a b} hab => ?_)
    rw [a.entry_seq, b.entry_seq]
    exact Nat.ne_of_lt hab

theorem readable (h : Live sh c db d conts old kept) (hh : HandleOk sh c db) (maxSeq : Nat) :
    Readable sh d.blocks conts db maxSeq := by
  have hs := h.dbStores hh
  exact ⟨hs.sorted, fun t ht => (hs.tables t ht).1, fun key => (hs.seen key maxSeq).distinct,
    fun key => (hs.seen key maxSeq).not_straddled⟩

/-- What a key shows is what the log says. -/
theorem shown (h : Live sh c db d conts old kept) (hh : HandleOk sh c db) (key : Bytes) (maxSeq now : Nat) :
    Horton.shown (db.sourcesAt sh conts key maxSeq) now = History.get (old ++ kept) key maxSeq now :=
  (h.dbStores hh).shown_eq h.entries key maxSeq now

end Live

/-- A read answers from the log. -/
theorem Serves.get (h : Serves sh c db d log) (hopen : db.opened = true) (key : Bytes) (valBuf maxSeq now : Nat) :
    (db.getAtWithTime sh key valBuf maxSeq now).eval d.blocks = fitted valBuf (History.get log key maxSeq now) := by
  obtain ⟨hh, conts, old, kept, hl, rfl⟩ := h
  unfold Db.getAtWithTime
  rw [if_pos hopen, (hl.readable hh maxSeq).readPoint, hl.shown hh]
  cases History.get (old ++ kept) key maxSeq now <;> rfl

/-- The answers of the device do not matter. -/
theorem Serves.answering (h : Serves sh c s.db s.dev log) (fates : List Fate) : Serves sh c s.db (s.answering fates) log :=
    by
  obtain ⟨hh, conts, old, kept, hl, hlog⟩ := h
  exact ⟨hh, conts, old, kept, hl.same rfl rfl, hlog⟩

/-- The log is what the device stores, and what an open handle serves. -/
structure StoreOk (sh : Shape) (c : Config) (s : Sys) (log : List Record) : Prop where
  handle : HandleOk sh c s.db
  stored : Stores sh c s.dev log
  opened : s.db.opened = true → Serves sh c s.db s.dev log

namespace Sys

/-- One step of a run. -/
def act (cfg : Config) (s : Sys) (e : Action sh × List Fate) : Sys := s.step cfg e.1 e.2

/-- The power may be cut anywhere in an action; but the device answers requests correctly otherwise, no operation on tables
is under way, and no block passes a check by chance. -/
def Honest (cfg : Config) (s : Sys) (e : Action sh × List Fate) : Prop :=
  OnlyCuts e.2 ∧ (∀ a, e.1 ≠ .table a) ∧ Genuine sh (cfg.resolveLayout sh) s.dev ∧
    Genuine sh (cfg.resolveLayout sh) (s.act cfg e).dev

/-- What an action adds to the log. -/
def Adds (s : Sys) (e : Action sh × List Fate) (log log' : List Record) : Prop :=
  match e.1 with
  | .call c => Added (s.db.group c.ops) log log' (c.run s.db (s.answering e.2)).1
  | _ => log' = log

end Sys

namespace StoreOk

theorem ended {α : Type} {o : Outcome Error α} {rs : List Record}
    (h : Leaves sh (cfg.resolveLayout sh) log o db' d') :
    StoreOk sh (cfg.resolveLayout sh) (Sys.ended sh cfg s (o, db', d') rs) log := by
  have hkept : Serves sh (cfg.resolveLayout sh) db' d' log →
      StoreOk sh (cfg.resolveLayout sh) ⟨db', d', s.appended ++ rs⟩ log := fun hs => ⟨hs.1, hs.stores, fun _ => hs⟩
  cases o with
  | ok a => exact hkept h
  | err e => exact hkept h
  | dropped => exact hkept h
  | cut => exact ⟨.new sh cfg, h, by simp [Sys.ended, Db.new]⟩

/-- An action that a closed handle refuses. -/
theorem ended_closed {α : Type} {p : Prog Db Error α} {fates : List Fate} (h : StoreOk sh (cfg.resolveLayout sh) s log)
    (rs : List Record) (hclosed : s.db.opened = false)
    (hp : p.wp (fun o db' d' => o = .err .notOpen ∧ db' = s.db ∧ d' = s.answering fates) s.db (s.answering fates)) :
    (p s.db (s.answering fates)).1 = .err .notOpen ∧
      StoreOk sh (cfg.resolveLayout sh) (Sys.ended sh cfg s (p s.db (s.answering fates)) rs) log := by
  rcases hrun : p s.db (s.answering fates) with ⟨o, db', d'⟩
  obtain ⟨rfl, rfl, rfl⟩ := Prog.wp_run hp hrun
  refine ⟨rfl, h.handle, h.stored.same rfl rfl, fun ho => ?_⟩
  exact absurd (hclosed.symm.trans ho) (by simp)

/-- What an action leaves that changes the list of snapshots at most. -/
theorem ended_snapshots {α : Type} {p : Prog Db Error α} {fates : List Fate} (h : StoreOk sh (cfg.resolveLayout sh) s log)
    (hp : p.wp (fun _ db' d' => d' = s.answering fates ∧ ∃ snaps, db' = { s.db with snapshots := snaps }) s.db
      (s.answering fates)) :
    StoreOk sh (cfg.resolveLayout sh) (Sys.ended sh cfg s (p s.db (s.answering fates)) []) log := by
  rcases hrun : p s.db (s.answering fates) with ⟨o, db', d'⟩
  obtain ⟨rfl, snaps, rfl⟩ := Prog.wp_run hp hrun
  have hh : HandleOk sh (cfg.resolveLayout sh) { s.db with snapshots := snaps } :=
    ⟨h.handle.cfg, h.handle.walStart, h.handle.walEnd, h.handle.stage⟩
  have hstored : Stores sh (cfg.resolveLayout sh) (s.answering fates) log := h.stored.same rfl rfl
  have hsame : StoreOk sh (cfg.resolveLayout sh)
      ⟨{ s.db with snapshots := snaps }, s.answering fates, s.appended ++ []⟩ log := by
    refine ⟨hh, hstored, fun hopen => ?_⟩
    obtain ⟨-, conts, old, kept, hl, hlog⟩ := h.opened hopen
    have hl' : Live sh (cfg.resolveLayout sh) s.db (s.answering fates) conts old kept := hl.same rfl rfl
    exact ⟨hh, conts, old, kept,
      ⟨hl'.stored, hl'.table, hl'.stage, hl'.nextSeq, hl'.newest, hl'.inside, hl'.layout, hl'.marks⟩, hlog⟩
  cases o with
  | ok a => exact hsame
  | err e => exact hsame
  | dropped => exact hsame
  | cut => exact ⟨.new sh cfg, hstored, by simp [Sys.ended, Db.new]⟩

theorem snapshot (h : StoreOk sh (cfg.resolveLayout sh) s log) (fates : List Fate) :
    StoreOk sh (cfg.resolveLayout sh) (s.step cfg (Action.snapshot : Action sh) fates) log := by
  refine h.ended_snapshots ?_
  rw [Db.snapshot, Prog.wp_bind, Prog.wp_get, Prog.andThen_ok]
  split
  · exact ⟨rfl, _, rfl⟩
  split
  · exact ⟨rfl, _, rfl⟩
  · exact ⟨rfl, _, rfl⟩

theorem releaseSnapshot (h : StoreOk sh (cfg.resolveLayout sh) s log) (snap : Nat) (fates : List Fate) :
    StoreOk sh (cfg.resolveLayout sh) (s.step cfg (Action.releaseSnapshot snap : Action sh) fates) log := by
  rw [Sys.step]
  refine h.ended_snapshots ?_
  rw [Db.releaseSnapshot, Prog.wp_modify]
  split
  · exact ⟨rfl, _, rfl⟩
  · exact ⟨rfl, _, rfl⟩

theorem open_ (h : StoreOk sh (cfg.resolveLayout sh) s log) {fates : List Fate}
    (hg : Genuine sh (cfg.resolveLayout sh) s.dev) :
    StoreOk sh (cfg.resolveLayout sh) (s.step cfg (Action.open_ : Action sh) fates) log := by
  rw [Sys.step]
  rcases hrun : Db.open_ sh s.db (s.answering fates) with ⟨o, db', d'⟩
  have hstored : Stores sh (cfg.resolveLayout sh) (s.answering fates) log := h.stored.same rfl rfl
  have hend : Opens sh (cfg.resolveLayout sh) log o db' d' := hstored.open_ h.handle hg hrun
  cases o with
  | ok x => exact ended (o := .ok x) hend
  | cut => exact ended (o := (.cut : Outcome Error OpenReport)) hend
  | err e => exact ⟨hend.1, hend.2.2, fun ho => absurd (hend.2.1.symm.trans ho) (by simp)⟩
  | dropped => exact ⟨hend.1, hend.2.2, fun ho => absurd (hend.2.1.symm.trans ho) (by simp)⟩

theorem flush (hw : (cfg.resolveLayout sh).Works sh) (hsh : sh.RdelCounts) (h : StoreOk sh (cfg.resolveLayout sh) s log)
    {fates : List Fate} (hcuts : Sys.OnlyCuts fates) :
    StoreOk sh (cfg.resolveLayout sh) (s.step cfg (Action.flush : Action sh) fates) log := by
  rw [Sys.step]
  cases hopen : s.db.opened with
  | false => exact (h.ended_closed [] hopen (Db.closed_bind hopen _ _)).2
  | true =>
    obtain ⟨hh, conts, old, kept, hl, rfl⟩ := h.opened hopen
    rcases hrun : Db.flush sh s.db (s.answering fates) with ⟨o, db', d'⟩
    have hl' : Live sh (cfg.resolveLayout sh) s.db (s.answering fates) conts old kept := hl.same rfl rfl
    exact ended (hl'.flush hw hsh hh hopen hcuts hrun)

theorem call (h : StoreOk sh (cfg.resolveLayout sh) s log) (k : Call sh) {fates : List Fate} (hcuts : Sys.OnlyCuts fates)
    (hg : Genuine sh (cfg.resolveLayout sh) s.dev)
      (hg' : Genuine sh (cfg.resolveLayout sh) (s.step cfg (.call k) fates).dev) :
    ∃ log', s.Adds (.call k, fates) log log' ∧ StoreOk sh (cfg.resolveLayout sh) (s.step cfg (.call k) fates) log' := by
  unfold Sys.Adds
  unfold Sys.step at hg' ⊢
  dsimp only at hg' ⊢
  cases hopen : s.db.opened with
  | false =>
    obtain ⟨ho, hok⟩ := h.ended_closed (Sys.appendedBy s.db k.ops (k.run s.db (s.answering fates)).1) hopen
      (Call.closed hopen k (s.answering fates))
    rw [ho] at hok ⊢
    exact ⟨log, rfl, hok⟩
  | true =>
    obtain ⟨hh, conts, old, kept, hl, rfl⟩ := h.opened hopen
    have hl' : Live sh (cfg.resolveLayout sh) s.db (s.answering fates) conts old kept := hl.same rfl rfl
    rcases hrun : k.run s.db (s.answering fates) with ⟨o, db', d'⟩
    rw [hrun] at hg'
    obtain ⟨log', hlog, hleaves⟩ := hl'.call hh hopen hcuts hg.1 k hrun hg'.1
    exact ⟨log', hlog, ended hleaves⟩

/-- Every action keeps the log, and adds to it what it may. -/
theorem step (hw : (cfg.resolveLayout sh).Works sh) (hsh : sh.RdelCounts) (h : StoreOk sh (cfg.resolveLayout sh) s log)
    {e : Action sh × List Fate} (he : s.Honest cfg e) :
    ∃ log', s.Adds e log log' ∧ StoreOk sh (cfg.resolveLayout sh) (s.act cfg e) log' := by
  obtain ⟨a, fates⟩ := e
  obtain ⟨hcuts, hplain, hg, hg'⟩ := he
  unfold Sys.act at hg' ⊢
  dsimp only at hcuts hplain hg' ⊢
  cases a with
  | call k => exact h.call k hcuts hg hg'
  | flush => exact ⟨log, rfl, h.flush hw hsh hcuts⟩
  | open_ => exact ⟨log, rfl, h.open_ hg⟩
  | snapshot => exact ⟨log, rfl, h.snapshot fates⟩
  | releaseSnapshot snap => exact ⟨log, rfl, h.releaseSnapshot snap fates⟩
  | table a => exact absurd rfl (hplain a)
  | restart => exact ⟨log, rfl, .new sh cfg, h.stored, by simp [Sys.step, Db.new]⟩

/-- A device without log and manifest stores the empty log. -/
theorem init {d : Device} (hw : (cfg.resolveLayout sh).Works sh) (hd : Sys.Unwritten sh (cfg.resolveLayout sh) d) :
    StoreOk sh (cfg.resolveLayout sh) (Sys.init sh cfg d) [] := by
  have hnone : ∀ j o r, ¬Written d j o r := by
    rintro j o r ⟨w, hmem, -⟩
    rw [hd.writes] at hmem
    cases hmem
  have hreg : (cfg.resolveLayout sh).walStart < (cfg.resolveLayout sh).walEnd := by
    obtain ⟨s, hs, -⟩ := hw.accepted
    exact (Config.regions_of_check hs).wal_lt
  have hempty : ((cfg.resolveLayout sh).firstManifest sh).tables = [] := by
    unfold Config.firstManifest Manifest.tables Manifest.new
    simp
  have hstored : Stored sh (cfg.resolveLayout sh) d ((cfg.resolveLayout sh).firstManifest sh)
      (cfg.resolveLayout sh).walStart 0 ⟨fun _ => [], fun _ => []⟩ [] [] := by
    constructor
    · refine ⟨Manifest.wf_new hw.bounded.walStart_lt, Nat.zero_le _, fun _ => hd.blank, fun h => absurd rfl h, ?_⟩
      rintro k hk i hi x ⟨w, hmem, -⟩
      rw [hd.writes] at hmem
      cases hmem
    · exact fun _ => rfl
    · exact ⟨le_rfl, hreg.le, fun j h1 h2 => hd.length j ⟨h1, h2⟩, le_rfl, fun j _ _ _ o r hwr => absurd hwr (hnone j o r),
        ⟨0, none⟩, .nil, by simp, le_rfl, fun j _ _ o r hwr => absurd hwr (hnone j o r)⟩
    · exact le_rfl
    · exact le_rfl
    · simp [hempty]
    · simp
    · exact ⟨.new, rfl⟩
    · exact .nil
    · simp
    · simp
    · simp
    · simp [hempty]
    · simp [hempty]
    · simp [hempty]
    · simp [hempty]
    · simp [hempty]
    · intro s _
      rw [hempty]
      exact .nil s
  exact ⟨.new sh cfg, ⟨_, _, _, _, _, _, hstored, rfl⟩, by simp [Sys.init, Db.new]⟩

end StoreOk

/-! ### Whole runs -/

namespace Sys

/-- What is seen of a state whose log is `log`: an open handle reads from the log, and counts on from its newest record. -/
def Answers (sh : Shape) (s : Sys) (log : List Record) : Prop :=
  s.db.opened = true → s.db.nextSeq = lastSeq log ∧ ∀ key valBuf maxSeq now,
    (s.db.getAtWithTime sh key valBuf maxSeq now).eval s.dev.blocks = fitted valBuf (History.get log key maxSeq now)

theorem answers (h : StoreOk sh c s log) : s.Answers sh log := by
  intro hopen
  have hs := h.opened hopen
  refine ⟨?_, hs.get hopen⟩
  obtain ⟨-, conts, old, kept, hl, rfl⟩ := hs
  exact le_antisymm hl.newest (lastSeq_le hl.stored.le_top)

variable {d : Device} {es : List (Action sh × List Fate)}

end Sys

end Horton
