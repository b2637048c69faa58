import Horton.Basic
import Horton.Lib.Search

/-!
# The manifest

The in-memory manifest of `manifest.rs`, its edits, and the layout of its copies.  The pool of table refs is kept as the
list of its levels; a pool position is an index into their concatenation.

An edit is looked at in two ways: `applyChecked` changes the manifest in memory, and `viewLevel` lists a level as the
edit would leave it, which is what a commit writes before the edit is applied.
-/

namespace Horton

/-- Where the copies live: at `first` and `second`, or `ring` of them back to back from `first` on. -/
structure ManifestLayout where
  first : Nat
  second : Nat
  ring : Nat
  ring_ne_one : ring ≠ 1
  deriving DecidableEq, Repr

namespace ManifestLayout

def pair (a b : Nat) : ManifestLayout := ⟨a, b, 0, by decide⟩

/-- Fewer than two copies are treated as two. -/
def ringOf (start copies : Nat) : ManifestLayout := ⟨start, 0, if copies < 2 then 2 else copies, by split <;> omega⟩

def copies (l : ManifestLayout) : Nat := if l.ring = 0 then 2 else l.ring

/-- First block of copy `k`, for copies of `stride` blocks. -/
def copyStart (l : ManifestLayout) (k stride : Nat) : Nat :=
  if l.ring = 0 then (if k % 2 = 0 then l.first else l.second) else l.first + k % l.ring * stride

/-- Different copies share no block. -/
def Disjoint (l : ManifestLayout) (stride : Nat) : Prop :=
  ∀ k < l.copies, ∀ k' < l.copies, k ≠ k' → ∀ i < stride, ∀ i' < stride,
    l.copyStart k stride + i ≠ l.copyStart k' stride + i'

theorem two_le_copies (l : ManifestLayout) : 2 ≤ l.copies := by
  have := l.ring_ne_one
  unfold copies; split <;> omega

end ManifestLayout

/-- One table's placement. -/
structure TableRef where
  id : Nat
  firstBlock : Nat
  blockCount : Nat
  firstKey : Bytes
  lastKey : Bytes
  maxSeq : Nat
  minSeq : Nat
  entryCount : Nat
  rdelBlocks : Nat
  nodeId : Nat
  sealWall : Nat
  deriving DecidableEq, Repr

/-- The values the fields of a table ref can hold. -/
structure TableRef.WF (sh : Shape) (t : TableRef) : Prop where
  id_lt : t.id < 2 ^ 32
  firstBlock_lt : t.firstBlock < 2 ^ 64
  blockCount_lt : t.blockCount < 2 ^ 32
  firstKey_le : t.firstKey.length ≤ sh.KEY_MAX
  lastKey_le : t.lastKey.length ≤ sh.KEY_MAX
  maxSeq_lt : t.maxSeq < 2 ^ 64
  minSeq_lt : t.minSeq < 2 ^ 64
  entryCount_lt : t.entryCount < 2 ^ 32
  rdelBlocks_lt : t.rdelBlocks < 2 ^ 32
  nodeId_lt : t.nodeId < 2 ^ 32
  sealWall_lt : t.sealWall < 2 ^ 64

structure Manifest where
  seq : Nat
  walHead : Nat
  nextTableId : Nat
  flushedSeq : Nat
  seqHigh : Nat
  levels : List (List TableRef)
  deriving DecidableEq, Repr

/-- A staged change.  `removed` and `narrowed` are 64-bit masks of pool positions. -/
structure ManifestEdit where
  walHead : Option Nat
  flushed : Nat
  seqHigh : Nat
  nextTableId : Nat
  removed : Nat
  narrowed : Nat
  narrowTo : Bytes
  added : Option (Nat × TableRef)
  stamped : Option (Nat × Nat × Nat)
  deriving DecidableEq, Repr

/-- Bit `pos` of a 64-bit mask. -/
def bit (mask pos : Nat) : Bool := decide (pos < 64) && mask.testBit pos

/-- `u64::count_ones`. -/
def countOnes (mask : Nat) : Nat := (List.range 64).countP (mask.testBit ·)

/-- The mask of the positions below `n`. -/
def maskBelow (n : Nat) : Nat := if n ≥ 64 then U64_MAX else 2 ^ n - 1

namespace ManifestEdit

def EMPTY : ManifestEdit := ⟨none, 0, 0, 0, 0, 0, [], none, none⟩

def setWalHead (e : ManifestEdit) (head : Nat) : ManifestEdit := { e with walHead := some head }

def noteFlushed (e : ManifestEdit) (seq : Nat) : ManifestEdit := { e with flushed := max e.flushed seq }

def raiseSeqHigh (e : ManifestEdit) (seq : Nat) : ManifestEdit := { e with seqHigh := max e.seqHigh seq }

def advanceNextTableId (e : ManifestEdit) (floor : Nat) : ManifestEdit :=
  { e with nextTableId := max e.nextTableId floor }

def add (e : ManifestEdit) (level : Nat) (tref : TableRef) : Except Error ManifestEdit :=
  if e.added.isSome then .error .manifestFull else .ok { e with added := some (level, tref) }

end ManifestEdit

/-- The values the fields of an edit can hold. -/
structure ManifestEdit.WF (sh : Shape) (e : ManifestEdit) : Prop where
  walHead_lt : ∀ h ∈ e.walHead, h < 2 ^ 64
  flushed_lt : e.flushed < 2 ^ 64
  seqHigh_lt : e.seqHigh < 2 ^ 64
  nextTableId_lt : e.nextTableId < 2 ^ 32
  removed_lt : e.removed < 2 ^ 64
  narrowTo_le : e.narrowTo.length ≤ sh.KEY_MAX
  added_wf : ∀ a ∈ e.added, a.2.WF sh
  stamped_lt : ∀ s ∈ e.stamped, s.2.1 < 2 ^ 32 ∧ s.2.2 < 2 ^ 64

namespace Manifest

def new (sh : Shape) : Manifest := ⟨0, 0, 0, 0, 0, List.replicate sh.LEVELS []⟩

def CAPACITY (sh : Shape) : Nat := sh.LEVELS * sh.TABLES

/-- Pool index where level `level`'s refs begin. -/
def start (m : Manifest) (level : Nat) : Nat := ((m.levels.take level).map List.length).sum

/-- Live refs across all levels. -/
def live (m : Manifest) : Nat := (m.levels.map List.length).sum

def tables (m : Manifest) : List TableRef := m.levels.flatten

def level (m : Manifest) (idx : Nat) : List TableRef := m.levels.getD idx []

def l0 (m : Manifest) : List TableRef := m.level 0

/-- Highest sequence number across all live tables. -/
def maxSeq (m : Manifest) : Nat := (m.tables.map TableRef.maxSeq).foldl max 0

/-- Pool position of table `id` at `level`. -/
def position (sh : Shape) (m : Manifest) (level id : Nat) : Except Error (Option Nat) :=
  if level ≥ sh.LEVELS then .error (.badLevel level)
  else .ok (((m.level level).findIdx? (·.id = id)).map (m.start level + ·))

def stageRemove (sh : Shape) (m : Manifest) (e : ManifestEdit) (level id : Nat) :
    Except Error (ManifestEdit × Bool) := do
  match ← m.position sh level id with
  | none => return (e, false)
  | some pos => return ({ e with removed := e.removed ||| 2 ^ pos }, true)

def stageNarrow (sh : Shape) (m : Manifest) (e : ManifestEdit) (level id : Nat) (first : Bytes) :
    Except Error (ManifestEdit × Bool) := do
  match ← m.position sh level id with
  | none => return (e, false)
  | some pos =>
    if e.narrowed ≠ 0 ∧ e.narrowTo ≠ first then throw .manifestFull
    return ({ e with narrowed := e.narrowed ||| 2 ^ pos, narrowTo := first }, true)

def stageStamp (m : Manifest) (e : ManifestEdit) (id nodeId sealWall : Nat) : Except Error (ManifestEdit × Bool) :=
  if ¬ m.tables.any (·.id = id) then .ok (e, false)
  else if e.stamped.isSome then .error .manifestFull
  else .ok ({ e with stamped := some (id, nodeId, sealWall) }, true)

/-- Checks that the positions of an edit are live and that its added ref has a level and room in it and in the pool. -/
def checkEdit (sh : Shape) (m : Manifest) (e : ManifestEdit) : Except Error Unit :=
  if (e.removed ||| e.narrowed) &&& (U64_MAX ^^^ maskBelow m.live) ≠ 0 then .error .manifestFull
  else match e.added with
    | none => .ok ()
    | some (level, _) =>
      if level ≥ sh.LEVELS then .error (.badLevel level)
      else if m.live - countOnes e.removed ≥ CAPACITY sh then .error .manifestFull
      else if level = 0 ∧ m.l0.length - countOnes (e.removed &&& maskBelow m.l0.length) ≥ sh.TABLES then
        .error .manifestFull
      else .ok ()

/-! ### The manifest as an edit would leave it -/

/-- A ref with its narrowing and its stamp. -/
def viewRef (e : ManifestEdit) (pos : Nat) (t : TableRef) : TableRef :=
  let t := if bit e.narrowed pos then { t with firstKey := e.narrowTo } else t
  match e.stamped with
  | some (id, nodeId, sealWall) => if t.id = id then { t with nodeId := nodeId, sealWall := sealWall } else t
  | none => t

/-- The loop of `view_level` from pool position `pos` on; `pending` is the added ref while it is still to come. -/
def viewFrom (e : ManifestEdit) (li : Nat) : Nat → List TableRef → Option TableRef → List TableRef
  | _, [], pending => pending.toList
  | pos, t :: ts, pending =>
    if bit e.removed pos then viewFrom e li (pos + 1) ts pending
    else
      let t := viewRef e pos t
      match pending with
      | some a =>
        if 0 < li ∧ a.firstKey ≤ t.firstKey then a :: t :: viewFrom e li (pos + 1) ts none
        else t :: viewFrom e li (pos + 1) ts (some a)
      | none => t :: viewFrom e li (pos + 1) ts none

def viewLevel (m : Manifest) (e : ManifestEdit) (li : Nat) : List TableRef :=
  viewFrom e li (m.start li) (m.level li) ((e.added.filter (·.1 = li)).map (·.2))

/-- The manifest as the commit of `e` writes it. -/
def view (sh : Shape) (m : Manifest) (e : ManifestEdit) : Manifest where
  seq := m.seq + 1
  walHead := e.walHead.getD m.walHead
  nextTableId := max m.nextTableId e.nextTableId
  flushedSeq := max m.flushedSeq e.flushed
  seqHigh := max (max m.seqHigh e.seqHigh) e.flushed
  levels := (List.range sh.LEVELS).map (m.viewLevel e)

/-! ### Applying an edit in memory -/

/-- Adds a ref to a level that has room: at the end of level 0, below where a binary search for its first key ends. -/
def insertRef (level : Nat) (a : TableRef) (ts : List TableRef) : List TableRef :=
  if level = 0 then ts ++ [a]
  else
    let within := Search.partitionPoint (·.firstKey < a.firstKey) ts
    ts.take within ++ a :: ts.drop within

/-- The refs with the positions they have in the pool. -/
def positions : Nat → List (List TableRef) → List (List (TableRef × Nat))
  | _, [] => []
  | n, l :: ls => l.zipIdx n :: positions (n + l.length) ls

/-- The refs of a level from pool position `pos` on that an edit keeps, with their narrowings. -/
def keptRefs (e : ManifestEdit) (pos : Nat) (ts : List TableRef) : List TableRef :=
  (ts.zipIdx pos).filterMap fun x =>
    if bit e.removed x.2 then none else some (if bit e.narrowed x.2 then { x.1 with firstKey := e.narrowTo } else x.1)

/-- The level below 0 that gets the added ref is in first-key order when it does. -/
def InOrder (m : Manifest) (e : ManifestEdit) : Prop :=
  ∀ x ∈ e.added, 0 < x.1 → (keptRefs e (m.start x.1) (m.level x.1)).Pairwise (·.firstKey ≤ ·.firstKey)

/-- Stamps the first ref with the id. -/
def stampFirst (id nodeId sealWall : Nat) : List (List TableRef) → List (List TableRef)
  | [] => []
  | l :: ls =>
    if l.any (·.id = id) then
      l.modify (l.findIdx (·.id = id)) (fun t => { t with nodeId := nodeId, sealWall := sealWall }) :: ls
    else l :: stampFirst id nodeId sealWall ls

/-- Applies an edit that `checkEdit` accepted: scalars, the stamp, narrowings, removals, the added ref. -/
def applyChecked (m : Manifest) (e : ManifestEdit) : Manifest :=
  let stamped := match e.stamped with
    | some (id, nodeId, sealWall) => stampFirst id nodeId sealWall m.levels
    | none => m.levels
  let kept := (positions 0 stamped).map fun l => l.filterMap fun x =>
    if bit e.removed x.2 then none
    else some (if bit e.narrowed x.2 then { x.1 with firstKey := e.narrowTo } else x.1)
  { m with
    walHead := e.walHead.getD m.walHead
    flushedSeq := max m.flushedSeq e.flushed
    seqHigh := max (max m.seqHigh e.flushed) e.seqHigh
    nextTableId := max m.nextTableId e.nextTableId
    levels := match e.added with
      | some (level, a) => kept.modify level (insertRef level a)
      | none => kept }

/-! ### Sizes -/

/-- The largest body any manifest of this shape can encode to. -/
def MAX_BODY (sh : Shape) : Nat := 8 + 4 + 8 + 8 + 4 + 4 * sh.LEVELS + CAPACITY sh * (56 + 2 * sh.KEY_MAX)

/-- Body bytes a block carries. -/
def chunk (sh : Shape) : Nat := sh.BLOCK - 24 - 4

/-- `usize::div_ceil`. -/
def divCeil (a b : Nat) : Nat := (a + b - 1) / b

/-- Blocks one copy can need, at most. -/
def maxBlocks (sh : Shape) : Nat := divCeil (MAX_BODY sh) (chunk sh)

/-- Blocks a body of `len` bytes occupies. -/
def blocksFor (sh : Shape) (len : Nat) : Nat :=
  let n := divCeil len (chunk sh)
  if n = 0 then 1 else n

/-- Body bytes of the manifest as the edit would leave it. -/
def viewBodyLen (sh : Shape) (m : Manifest) (e : ManifestEdit) : Nat :=
  let refs := ((List.range sh.LEVELS).map fun li =>
    ((m.viewLevel e li).map fun t => 56 + t.firstKey.length + t.lastKey.length).sum).sum
  8 + 4 + 8 + 8 + 4 + 4 * sh.LEVELS + refs

end Manifest

end Horton
