import Horton.Lib.Newest
import Horton.MemTable.Refine
import Horton.Wal.Replay

/-!
# The log of a database

What a database is for, in the terms of its mutations: `History.get` answers a read from the list of all mutations that were
accepted, however the database keeps them.  Of the mutations that bear on a key the newest one decides, and a read never
falls through to an older one.
-/

namespace Horton

namespace Record

/-- The mutation bears on `key` for a read at `maxSeq`: it is a version of the key, or a range tombstone around it. -/
def BearsOn (key : Bytes) (maxSeq : Nat) (r : Record) : Prop :=
  r.seq ≤ maxSeq ∧ if r.op = .rangeDelete then r.key ≤ key ∧ key < r.val else r.key = key

instance (key : Bytes) (maxSeq : Nat) : DecidablePred (BearsOn key maxSeq) := by
  unfold BearsOn
  infer_instance

/-- The value that a mutation leaves. -/
def value (now : Nat) (r : Record) : Option Bytes :=
  match r.op with
  | .put => some r.val
  | .putTtl => if r.expireAt ≠ 0 ∧ r.expireAt ≤ now then none else some r.val
  | .delete => none
  | .rangeDelete => none

end Record

/-- What a read of `key` at `maxSeq` finds in a log of mutations. -/
def History.get (log : List Record) (key : Bytes) (maxSeq now : Nat) : Option Bytes :=
  (newestOf Record.seq (Record.BearsOn key maxSeq) log).bind (Record.value now)

/-! ### The log as entries -/

namespace Entry

/-- An entry bears on a key as its mutation does. -/
def BearsOn (key : Bytes) (maxSeq : Nat) (e : Entry) : Prop := e.Version key maxSeq ∨ e.Covers key maxSeq

instance (key : Bytes) (maxSeq : Nat) : DecidablePred (BearsOn key maxSeq) := by
  unfold BearsOn Version Covers
  infer_instance

/-- The value that an entry leaves. -/
def value (now : Nat) (e : Entry) : Option Bytes :=
  if e.tombstone = true ∨ e.rangeDel = true ∨ (e.expireAt ≠ 0 ∧ e.expireAt ≤ now) then none else some e.val

end Entry

variable {key : Bytes} {maxSeq now : Nat} {log : List Record}

theorem Record.bearsOn_entry (r : Record) : r.entry.BearsOn key maxSeq ↔ r.BearsOn key maxSeq := by
  unfold Entry.BearsOn Entry.Version Entry.Covers Record.BearsOn Record.entry
  cases r.op <;> simp <;> tauto

theorem Record.value_entry (r : Record) : r.entry.value now = r.value now := by
  unfold Entry.value Record.value Record.entry
  cases r.op <;> simp

theorem Record.seq_entry (r : Record) : r.entry.seq = r.seq := by
  unfold Record.entry
  cases r.op <;> rfl

/-- A log read through its entries. -/
theorem History.get_eq (log : List Record) (key : Bytes) (maxSeq now : Nat) : History.get log key maxSeq now =
    (newestOf Entry.seq (Entry.BearsOn key maxSeq) (log.map Record.entry)).bind (Entry.value now) := by
  unfold History.get
  rw [newestOf_map Record.seq_entry Record.bearsOn_entry]
  cases newestOf Record.seq (Record.BearsOn key maxSeq) log with
  | none => rfl
  | some r => exact (Record.value_entry r).symm

end Horton
