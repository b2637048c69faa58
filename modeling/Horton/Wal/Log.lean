import Horton.Batch

/-!
# The log as a system

`LogSys` is a WAL region with its writer, the head and the floor that the manifest keeps for it, and the client's
sequence counter.  A `LogEvent` is one thing a client or the power supply does: append a record, append a batch as one
group, drop staged groups again, commit, flush (the head moves behind the log, back to the start of a full region, and
the floor over everything issued), lose power, recover.  A power cut inside an event is in the device's fates.

`AbsLog` says what a log of groups is for: it holds the acknowledged groups since the last flush, and the pending ones,
of which a crash keeps a prefix.
-/

namespace Horton

open BlockDev GroupLog

structure LogSys where
  wal : WalWriter
  dev : Device
  head : Nat
  floor : Nat
  /-- Highest number issued before the staged groups. -/
  base : Nat
  /-- The groups in the staging buffer. -/
  staged : List (List Record)
  /-- False from a power cut until recovery. -/
  up : Bool

inductive LogEvent
  | append (op : BatchOp)
  | write (ops : List BatchOp)
  | truncate (n : Nat)
  | commit
  | flush
  | crash
  /-- `high` is what else the manifest knows about numbers already issued. -/
  | recover (high : Nat)

inductive LogLabel
  | appended (g : List Record)
  | rejected
  | truncated
  | committed
  | flushed
  | crashed
  | recovered (table : MemTable)
  | corrupt

namespace LogSys

variable (sh : Shape)

/-- A region whose database was never opened. -/
def init (dev : Device) (walStart walEnd : Nat) : LogSys :=
  ⟨WalWriter.new sh walStart walEnd, dev, walStart, 0, 0, [], false⟩

def nextSeq (s : LogSys) : Nat := s.base + s.staged.flatten.length

def down (s : LogSys) (d : Device) : LogSys := { s with dev := d, up := false }

/-- The group was staged, behind the staged ones or in a buffer emptied by a block write. -/
def afterAppend (s : LogSys) (g : List Record) (w : WalWriter) (d : Device) : LogSys :=
  if w.nextBlock = s.wal.nextBlock then { s with wal := w, dev := d, staged := s.staged ++ [g] }
  else { s with wal := w, dev := d, base := s.nextSeq, staged := [g] }

/-- What the write paths do when an append fails: unless a block landed, the stage goes back to where it was. -/
def rollback (s : LogSys) (w : WalWriter) : WalWriter :=
  if w.nextBlock = s.wal.nextBlock then w.truncateStage s.wal.stageLen else w

/-- Runs the program that stages group `g`. -/
def runAppend (s : LogSys) (g : List Record) (p : Prog WalWriter Error Unit) : LogLabel × LogSys :=
  match p s.wal s.dev with
  | (.ok _, w, d) => (.appended g, s.afterAppend g w d)
  | (.err _, w, d) => (.rejected, { s with wal := s.rollback w, dev := d })
  | (.cut, _, d) => (.crashed, s.down d)
  | (.dropped, w, d) => (.rejected, { s with wal := w, dev := d })

/-- Everything issued is durable. -/
def committed (s : LogSys) (w : WalWriter) (d : Device) : LogSys :=
  { s with wal := w, dev := d, base := s.nextSeq, staged := [] }

/-- The manifest edit of a flush: the head moves to the append position, or both to the start of a full region. -/
def flushed (s : LogSys) : LogSys :=
  if s.wal.nextBlock ≥ s.wal.walEnd then
    { s with head := s.wal.walStart, floor := s.nextSeq, wal := s.wal.resetTo s.wal.walStart }
  else { s with head := s.wal.nextBlock, floor := s.nextSeq }

def recovered (s : LogSys) (high : Nat) (w : WalWriter) (d : Device) (st : RecoverState) : LogSys :=
  { s with wal := w, dev := d, base := max (max st.maxSeq s.floor) high, staged := [], up := true }

def step (s : LogSys) : LogEvent → LogLabel × LogSys
  | .append op =>
    if s.up = false ∨ s.nextSeq + 1 > U64_MAX then (.rejected, s)
    else s.runAppend [op.record (s.nextSeq + 1) false] (op.append sh (s.nextSeq + 1) false)
  | .write ops =>
    -- `Db::write` drains the stage first, which is a `commit` here, and checks the size of the group.
    if s.up = false ∨ ops = [] ∨ s.staged ≠ [] ∨ s.nextSeq + ops.length > U64_MAX ∨
        (ops.map BatchOp.needWal).sum > sh.BLOCK then (.rejected, s)
    else s.runAppend (groupRecords (s.nextSeq + 1) ops) (appendGroup sh (s.nextSeq + 1) ops)
  | .truncate n =>
    if s.up = false then (.rejected, s)
    else (.truncated,
      { s with wal := s.wal.truncateStage (lens (s.staged.take n).flatten), staged := s.staged.take n })
  | .commit =>
    if s.up = false then (.rejected, s)
    else match WalWriter.commit s.wal s.dev with
      | (.ok _, w, d) => (.committed, s.committed w d)
      | (.err _, w, d) => (.rejected, { s with wal := w, dev := d })
      | (.cut, _, d) => (.crashed, s.down d)
      | (.dropped, w, d) => (.rejected, { s with wal := w, dev := d })
  | .flush =>
    if s.up = false then (.rejected, s)
    else match WalWriter.commit s.wal s.dev with
      | (.ok _, w, d) => (.flushed, (s.committed w d).flushed)
      | (.err _, w, d) => (.rejected, { s with wal := w, dev := d })
      | (.cut, _, d) => (.crashed, s.down d)
      | (.dropped, w, d) => (.rejected, { s with wal := w, dev := d })
  | .crash => (.crashed, s.down s.dev)
  | .recover high =>
    match WalWriter.recoverFrom sh .new s.head s.floor (WalWriter.new sh s.wal.walStart s.wal.walEnd) s.dev with
    | (.ok (t, st), w, d) => (.recovered t, s.recovered high w d st)
    | (.err _, _, d) => (.corrupt, s.down d)
    | (.cut, _, d) => (.crashed, s.down d)
    | (.dropped, _, d) => (.crashed, s.down d)

def run (s : LogSys) : List LogEvent → LogSys
  | [] => s
  | e :: es => run (s.step sh e).2 es

def labels (s : LogSys) : List LogEvent → List LogLabel
  | [] => []
  | e :: es => (s.step sh e).1 :: labels (s.step sh e).2 es

end LogSys

/-- The groups acknowledged since the last flush, and those appended and not yet acknowledged. -/
structure AbsLog where
  acked : List (List Record)
  pending : List (List Record)

/-- What may happen to a log of groups.  A recovery replays the acknowledged groups and a prefix of the pending ones,
record by record in order. -/
inductive AbsLog.Step (sh : Shape) : AbsLog → LogLabel → AbsLog → Prop
  | appended (a p g) : Step sh ⟨a, p⟩ (.appended g) ⟨a, p ++ [g]⟩
  | rejected (s) : Step sh s .rejected s
  | truncated {a p q} (h : q <+: p) : Step sh ⟨a, p⟩ .truncated ⟨a, q⟩
  | committed (a p) : Step sh ⟨a, p⟩ .committed ⟨a ++ p, []⟩
  | flushed (s) : Step sh s .flushed ⟨[], []⟩
  | crashed (s) : Step sh s .crashed s
  | recovered {a p q t} (h : q <+: p) (ht : replayAll sh .new (a ++ q).flatten = .ok t) :
      Step sh ⟨a, p⟩ (.recovered t) ⟨a ++ q, []⟩
  | corrupt {a p q e} (h : q <+: p) (he : replayAll sh .new (a ++ q).flatten = .error e) :
      Step sh ⟨a, p⟩ .corrupt ⟨a ++ q, []⟩

inductive AbsLog.Run (sh : Shape) : AbsLog → List LogLabel → AbsLog → Prop
  | nil (s) : Run sh s [] s
  | cons {s t u l ls} (h : Step sh s l t) (hr : Run sh t ls u) : Run sh s (l :: ls) u

/-! ### Staging a batch -/

section AppendGroup

variable {sh : Shape} {d : Device}

/-- A group that fits the buffer is staged without touching the device; an error leaves part of it staged. -/
theorem appendGroup_spec (ops : List BatchOp) (n : Nat) (rs : List Record) (w : WalWriter)
    (h : StageOk sh.BLOCK w rs) (hfit : lens rs + lens (groupRecords n ops) ≤ sh.BLOCK) :
    (appendGroup sh n ops).wp (fun o w' d' => d' = d ∧ w'.nextBlock = w.nextBlock ∧ w'.walStart = w.walStart ∧
      w'.walEnd = w.walEnd ∧ match o with
      | .ok _ => StageOk sh.BLOCK w' (rs ++ groupRecords n ops) ∧
          ∀ r ∈ groupRecords n ops, r.key.length ≤ U16_MAX ∧ r.val.length ≤ U16_MAX
      | .err _ => ∃ part, StageOk sh.BLOCK w' (rs ++ part)
      | .cut => False
      | .dropped => False) w d := by
  induction ops generalizing n rs w with
  | nil =>
    rw [appendGroup, Prog.wp_pure]
    exact ⟨rfl, rfl, rfl, rfl, by simpa [groupRecords] using h, by simp [groupRecords]⟩
  | cons op ops ih =>
    rw [groupRecords, lens_cons] at hfit
    rw [appendGroup, Prog.wp_bind]
    refine Prog.wp_mono (op.append_spec h n (!ops.isEmpty)) ?_
    intro o w' d' hp
    cases o with
    | err e =>
      rcases hp with ⟨rfl, rfl⟩ | ⟨hlt, -⟩
      · exact ⟨rfl, rfl, rfl, rfl, [], by simpa using h⟩
      · omega
    | cut => exact absurd hp.1 (by omega)
    | dropped => exact absurd hp.1 (by omega)
    | ok x =>
      obtain ⟨hk, hv, -, hp⟩ := hp
      rcases hp with ⟨hle, rfl, rfl⟩ | ⟨hlt, -⟩
      swap
      · omega
      have hst := h.stageRecord hle
      rw [Prog.andThen_ok]
      refine Prog.wp_mono (ih (n + 1) _ _ hst (by rw [lens_append, lens_cons, lens_nil]; omega)) ?_
      rintro o' w'' d'' ⟨h1, h2, h2a, h2b, h3⟩
      refine ⟨h1, h2, h2a, h2b, ?_⟩
      cases o' with
      | ok x =>
        refine ⟨by simpa [groupRecords] using h3.1, ?_⟩
        intro r hr
        rcases List.mem_cons.mp hr with rfl | hr
        · exact ⟨hk, hv⟩
        · exact h3.2 r hr
      | err e =>
        obtain ⟨part, hpart⟩ := h3
        exact ⟨_ :: part, by simpa using hpart⟩
      | cut => exact h3
      | dropped => exact h3

end AppendGroup

end Horton
