import Horton.Db.Frame
import Horton.Wal.Refine

/-!
# Runs of the database

A run is a sequence of calls on one handle over one device, with power cuts: after a cut the handle is gone and a new one
takes its place.  `appended` is a ghost: the records of the calls that returned `Ok` or were in flight at a cut.

The operations on tables (compaction, archive, ingest, stamps) are there with what they can do as far as the log is
concerned, one action on the device or on the handle at a time: they read, they write blocks of the table region, they
commit edits of the manifest that leave the WAL head alone, and they change the slot map and the fields of the job.
-/

namespace Horton

open BlockDev GroupLog

inductive TableAction
  | read (id : Nat)
  | write (id : Nat) (data : Bytes)
  | barrier
  | commit (e : ManifestEdit)
  | slots (used reserved hint : Nat)
  | job (gen : Nat) (active : Bool) (inputs : Nat)
  | manual (level : Option Nat) (mark start skip : Nat)

namespace TableAction

variable (sh : Shape)

def run : TableAction → Prog Db Error Unit
  | read id => do
    Db.ensureOpen
    let _ ← Prog.readBlock .device id
  | write id data => do
    Db.ensureOpen
    Prog.writeBlock .device id data
  | barrier => do
    Db.ensureOpen
    Prog.flush .device
  | commit e => do
    Db.ensureOpen
    let db ← Prog.get
    Db.onManifest (Manifest.commitEdit sh db.cfg.manifestLayout e)
  | slots used reserved hint =>
    Prog.modify fun db => { db with slots := { db.slots with used := used, reserved := reserved, hint := hint } }
  | job gen active inputs => Prog.modify fun db => { db with jobGen := gen, jobActive := active, jobInputs := inputs }
  | manual level mark start skip =>
    Prog.modify fun db => { db with manualLevel := level, manualMark := mark, manualStart := start, manualSkip := skip }

/-- What the operations on tables keep to. -/
def Legal (db : Db) : TableAction → Prop
  | write id _ => db.cfg.InTable id
  | commit e => e.WF sh ∧ e.walHead = none ∧ db.manifest.StampsOne e ∧ db.manifest.InOrder e
  | _ => True

end TableAction

inductive Action (sh : Shape)
  | call (c : Call sh)
  | flush
  | open_
  | snapshot
  | releaseSnapshot (snap : Nat)
  | table (a : TableAction)
  | restart

structure Sys where
  db : Db
  dev : Device
  appended : List Record

namespace Sys

variable {sh : Shape}

def init (sh : Shape) (cfg : Config) (dev : Device) : Sys := ⟨Db.new sh cfg, dev, []⟩

/-- The device as it answers the calls of the next action. -/
def answering (s : Sys) (fates : List Fate) : Device := { s.dev with fates := fates }

/-- The system when an action ended; a power cut takes the handle. -/
def ended {α : Type} (sh : Shape) (cfg : Config) (s : Sys) (r : Outcome Error α × Db × Device) (rs : List Record) : Sys where
  db := match r.1 with
    | .cut => Db.new sh cfg
    | _ => r.2.1
  dev := r.2.2
  appended := s.appended ++ rs

/-- The records that a call leaves behind: those of a call that returned or was in flight at a cut. -/
def appendedBy (db : Db) (ops : List BatchOp) : Outcome Error Nat → List Record
  | .ok _ => db.group ops
  | .cut => db.group ops
  | _ => []

def step (cfg : Config) (s : Sys) (a : Action sh) (fates : List Fate) : Sys :=
  match a with
  | .call c =>
    let r := c.run s.db (s.answering fates)
    ended sh cfg s r (appendedBy s.db c.ops r.1)
  | .flush => ended sh cfg s (Db.flush sh s.db (s.answering fates)) []
  | .open_ => ended sh cfg s (Db.open_ sh s.db (s.answering fates)) []
  | .snapshot => ended sh cfg s (Db.snapshot s.db (s.answering fates)) []
  | .releaseSnapshot snap => ended sh cfg s (Db.releaseSnapshot snap s.db (s.answering fates)) []
  | .table a => ended sh cfg s (a.run sh s.db (s.answering fates)) []
  | .restart => { s with db := Db.new sh cfg }

end Sys

end Horton
