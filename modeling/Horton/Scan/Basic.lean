import Horton.Db.Read

/-!
# Scans

What the two scans of `scan.rs` share.  Each merges the memtable and one cursor for each table by key, upwards or downwards.
On the next key the highest version among the heads wins, and the key is passed over when that version is a tombstone, has
expired or is hidden by a range tombstone.
-/

namespace Horton

open BlockDev Sstable

/-- The highest version of `l`, the first of them when versions tie; `none` where no version beats `Version.ZERO`. -/
def pickWinner {α : Type} (ver : α → Version) (l : List α) : Option α :=
  l.foldl (fun w h => if versionGt (ver h) (w.elim .ZERO ver) then some h else w) none

namespace Scans

/-- Where the value of a head lies. -/
inductive Place
  | mem (val : Bytes)
  | block (id off stop : Nat)
  deriving DecidableEq, Repr

/-- The head of a source. -/
structure Head where
  key : Bytes
  ver : Version
  tombstone : Bool
  valLen : Nat
  expireAt : Nat
  place : Place
  deriving DecidableEq, Repr

variable (sh : Shape)

/-- Copies the value of a parked head. -/
def Place.load : Place → Reads Error Bytes
  | .mem val => pure val
  | .block id off stop => do
    let body ← readDataBlock sh id
    let (entry, _) ← Reads.ofExcept (parseDataEntry body off stop id)
    return entry.val

/-- What a scan makes of the next key. -/
inductive Turn
  | done
  | hide (key : Bytes)
  | give (key val : Bytes)
  deriving DecidableEq, Repr

/-- The second pass of `next` and `prev`: the heads on `key` and what becomes of the key, before any source moves. -/
def resolve (db : Db) (heads : List Head) (key : Bytes) (maxSeq now keyBuf valBuf : Nat) : Reads Error Turn := do
  let winner := pickWinner Head.ver heads
  let covered ← db.rdelHides sh key maxSeq (winner.elim .ZERO Head.ver)
  match winner with
  -- Only sequence 0 beats nothing; it is reserved and invisible.
  | none => return .hide key
  | some w =>
    let expired := !w.tombstone && w.expireAt ≠ 0 && w.expireAt ≤ now
    if w.ver.seq = 0 || w.tombstone || covered || expired then return .hide key
    else if key.length > keyBuf then .fail (.bufferTooSmall key.length)
    else if w.valLen > valBuf then .fail (.bufferTooSmall w.valLen)
    else do
      let val ← w.place.load sh
      return .give key val

/-! ### The merge -/

/-- A scan in one direction: what `next` and `prev` need of it. -/
structure Merge (σ : Type) where
  heads : σ → List Head
  /-- The order of the direction. -/
  before : Bytes → Bytes → Bool
  /-- The bound at which the scan ends. -/
  ended : σ → Bytes → Bool
  maxSeq : σ → Nat
  now : σ → Nat
  /-- Steps every source past a key. -/
  pass : Bytes → Prog σ Error Unit
  /-- The entries still to come, at most. -/
  rounds : σ → Nat

/-- The first pass: the next key of all heads. -/
def nextKey (before : Bytes → Bytes → Bool) (heads : List Head) : Option Bytes :=
  heads.foldl (fun best h => if best.all (before h.key) then some h.key else best) none

namespace Merge

variable {σ : Type} (m : Merge σ) (db : Db) (keyBuf valBuf : Nat)

/-- Both passes over the heads. -/
def turn (s : σ) : Reads Error Turn :=
  match nextKey m.before (m.heads s) with
  | none => pure .done
  | some key =>
    if m.ended s key then pure .done
    else resolve sh db ((m.heads s).filter (·.key = key)) key (m.maxSeq s) (m.now s) keyBuf valBuf

/-- The loop of `next` and `prev`. -/
def yieldRounds : Nat → Prog σ Error (Option (Bytes × Bytes))
  | 0 => pure none
  | fuel + 1 => do
    let s ← Prog.get
    match ← (m.turn sh db keyBuf valBuf s).run .device with
    | .done => return none
    | .hide key => do
      m.pass key
      yieldRounds fuel
    | .give key val => do
      m.pass key
      return some (key, val)

def yield : Prog σ Error (Option (Bytes × Bytes)) := do
  let s ← Prog.get
  m.yieldRounds sh db keyBuf valBuf (m.rounds s + 1)

end Merge

end Scans

end Horton
