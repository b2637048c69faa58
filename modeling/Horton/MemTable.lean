import Horton.Basic

/-!
# The memtable

The fixed-capacity sorted memtable of `memtable.rs`.  `slots` is the used part of the slot array and `arena` the used
part of the bump arena (`len` and `arena_len` are their lengths).  Slots are sorted by key bytes; every insert goes in
front of its key's run, so a run holds the versions of its key newest first.
-/

namespace Horton

structure Slot where
  keyOff : Nat
  keyLen : Nat
  valOff : Nat
  valLen : Nat
  seq : Nat
  tombstone : Bool
  rangeDel : Bool
  expireAt : Nat
  deriving DecidableEq, Repr

/-- What `get` returns for a slot. -/
structure Lookup where
  val : Bytes
  seq : Nat
  tombstone : Bool
  expireAt : Nat
  deriving DecidableEq, Repr

/-- One memtable entry.  For a range tombstone `key` is the inclusive start and `val` the exclusive end. -/
structure Entry where
  key : Bytes
  val : Bytes
  seq : Nat
  tombstone : Bool
  rangeDel : Bool
  expireAt : Nat
  deriving DecidableEq, Repr

structure MemTable where
  slots : List Slot
  arena : Bytes
  maxSeq : Nat
  deriving DecidableEq, Repr

/-- Where an insert puts its slot and its bytes. -/
structure Plan where
  pos : Nat
  keyOff : Nat
  keyLen : Nat
  valOff : Nat
  valLen : Nat

namespace MemTable

def new : MemTable := ⟨[], [], 0⟩

def len (t : MemTable) : Nat := t.slots.length

def isEmpty (t : MemTable) : Bool := t.len == 0

def arenaLen (t : MemTable) : Nat := t.arena.length

/-- `u64::MAX` for an empty table. -/
def minSeq (t : MemTable) : Nat := t.slots.foldl (fun m s => min m s.seq) U64_MAX

def clear (_ : MemTable) : MemTable := ⟨[], [], 0⟩

def bytesAt (t : MemTable) (off len : Nat) : Bytes := (t.arena.drop off).take len

def slotKey (t : MemTable) (s : Slot) : Bytes := t.bytesAt s.keyOff s.keyLen

def slotVal (t : MemTable) (s : Slot) : Bytes := t.bytesAt s.valOff s.valLen

/-- `Ok(start)` with the first slot of `key`'s run, `Err(pos)` with the insertion point when the key is absent. -/
def findRun (t : MemTable) (key : Bytes) : Except Nat Nat :=
  let pos := t.slots.findIdx (fun s => decide (key ≤ t.slotKey s))
  match t.slots[pos]? with
  | some s => if t.slotKey s = key then .ok pos else .error pos
  | none => .error pos

def lowerBound (t : MemTable) (key : Bytes) : Nat :=
  match t.findRun key with
  | .ok start => start
  | .error pos => pos

variable (sh : Shape)

/-- The capacity part that both plans share: a slot and `keyLen + valLen` arena bytes. -/
def planAt (t : MemTable) (pos keyLen valLen : Nat) : Except Error Plan :=
  if t.len ≥ sh.CAP then .error .tableFull
  else if t.arenaLen + (keyLen + valLen) > sh.ARENA then .error .arenaFull
  else if t.arenaLen > U32_MAX then .error .arenaFull
  else if t.arenaLen + keyLen > U32_MAX then .error .arenaFull
  else .ok ⟨pos, t.arenaLen, keyLen, t.arenaLen + keyLen, valLen⟩

def plan (t : MemTable) (key val : Bytes) (tombstone : Bool) : Except Error Plan :=
  if key.isEmpty then .error .emptyKey
  else if key.length > U16_MAX then .error (.keyTooLarge key.length sh.KEY_MAX)
  else if key.length > sh.KEY_MAX then .error (.keyTooLarge key.length sh.KEY_MAX)
  else
    let vlen := if tombstone then 0 else val.length
    if vlen > U16_MAX then .error (.valueTooLarge vlen sh.VAL_MAX)
    else if vlen > sh.VAL_MAX then .error (.valueTooLarge vlen sh.VAL_MAX)
    else t.planAt sh (t.lowerBound key) key.length vlen

/-- The check `plan_range_del` makes of each bound. -/
def checkBound (bound : Bytes) : Except Error Unit :=
  if bound.isEmpty then .error .emptyKey
  else if bound.length > sh.KEY_MAX then .error (.keyTooLarge bound.length sh.KEY_MAX)
  else .ok ()

def planRangeDel (t : MemTable) (start stop : Bytes) : Except Error Plan := do
  checkBound sh start
  checkBound sh stop
  if start ≥ stop then .error .emptyKey
  else t.planAt sh (t.lowerBound start) start.length stop.length

/-- Appends the bytes to the arena and the slot at its position. -/
def apply (t : MemTable) (p : Plan) (key val : Bytes) (seq : Nat) (tombstone rangeDel : Bool) (expireAt : Nat) :
    MemTable where
  slots := t.slots.take p.pos ++
    ⟨p.keyOff, p.keyLen, p.valOff, p.valLen, seq, tombstone, rangeDel, expireAt⟩ :: t.slots.drop p.pos
  arena := t.arena ++ key.take p.keyLen ++ val.take p.valLen
  maxSeq := if seq > t.maxSeq then seq else t.maxSeq

def checkInsert (t : MemTable) (key val : Bytes) (tombstone : Bool) : Except Error Unit := do
  let _ ← t.plan sh key val tombstone

def checkInsertRangeDel (t : MemTable) (start stop : Bytes) : Except Error Unit := do
  let _ ← t.planRangeDel sh start stop

def insert (t : MemTable) (key val : Bytes) (seq : Nat) (tombstone : Bool) : Except Error MemTable := do
  let p ← t.plan sh key val tombstone
  return t.apply p key val seq tombstone false 0

def insertTtl (t : MemTable) (key val : Bytes) (seq expireAt : Nat) : Except Error MemTable := do
  let p ← t.plan sh key val false
  return t.apply p key val seq false false expireAt

def insertRangeDel (t : MemTable) (start stop : Bytes) (seq : Nat) : Except Error MemTable := do
  let p ← t.planRangeDel sh start stop
  return t.apply p start stop seq true true 0

/-- The walk of `get_at` along a run: range tombstones sort by their start but are not versions of the key. -/
def walkRun (t : MemTable) (key : Bytes) (maxSeq : Nat) : List Slot → Option Lookup
  | [] => none
  | s :: rest =>
    if t.slotKey s ≠ key then none
    else if s.rangeDel then walkRun t key maxSeq rest
    else if s.seq ≤ maxSeq then some ⟨t.slotVal s, s.seq, s.tombstone, s.expireAt⟩
    else walkRun t key maxSeq rest

/-- The newest version of `key` with `seq ≤ maxSeq`. -/
def getAt (t : MemTable) (key : Bytes) (maxSeq : Nat) : Option Lookup :=
  match t.findRun key with
  | .ok start => t.walkRun key maxSeq (t.slots.drop start)
  | .error _ => none

/-- Highest sequence number at or below `maxSeq` of a range tombstone covering `key`. -/
def maxCoveringRdel (t : MemTable) (key : Bytes) (maxSeq : Nat) : Option Nat :=
  t.slots.foldl (fun best s =>
    if !s.rangeDel || s.seq > maxSeq then best
    else if t.slotKey s ≤ key ∧ key < t.slotVal s ∧ (∀ b ∈ best, s.seq > b) then some s.seq
    else best) none

def entryOf (t : MemTable) (s : Slot) : Entry :=
  ⟨t.slotKey s, t.slotVal s, s.seq, s.tombstone, s.rangeDel, s.expireAt⟩

/-- Entries in key-ascending order, newest first within a key. -/
def iter (t : MemTable) : List Entry := t.slots.map t.entryOf

theorem length_iter (t : MemTable) : t.iter.length = t.slots.length := List.length_map ..

/-! ### What an insert does -/

/-- The bytes of every slot lie inside the used part of the arena. -/
def Intact (t : MemTable) : Prop :=
  ∀ s ∈ t.slots, s.keyOff + s.keyLen ≤ t.arena.length ∧ s.valOff + s.valLen ≤ t.arena.length

theorem intact_new : new.Intact := by simp [Intact, new]

theorem intact_clear (t : MemTable) : t.clear.Intact := by simp [Intact, clear]

variable {sh : Shape} {t : MemTable} {p : Plan} {key val : Bytes} {tombstone : Bool}

/-- What both plans grant and ask of a key and a value of these lengths. -/
structure Planned (sh : Shape) (t : MemTable) (p : Plan) (key : Bytes) (valLen : Nat) : Prop where
  eq : p = ⟨t.lowerBound key, t.arenaLen, key.length, t.arenaLen + key.length, valLen⟩
  slot : t.len < sh.CAP
  room : t.arenaLen + (key.length + valLen) ≤ sh.ARENA

theorem planAt_ok {pos keyLen valLen : Nat} (h : t.planAt sh pos keyLen valLen = .ok p) :
    p = ⟨pos, t.arenaLen, keyLen, t.arenaLen + keyLen, valLen⟩ ∧ t.len < sh.CAP ∧
      t.arenaLen + (keyLen + valLen) ≤ sh.ARENA := by
  unfold planAt at h
  split_ifs at h
  cases h
  exact ⟨rfl, by omega, by omega⟩

theorem planAt_of_room {pos keyLen valLen : Nat} (h1 : t.len < sh.CAP) (h2 : t.arenaLen + (keyLen + valLen) ≤ sh.ARENA) :
    t.planAt sh pos keyLen valLen = .ok ⟨pos, t.arenaLen, keyLen, t.arenaLen + keyLen, valLen⟩ := by
  have h3 := sh.assertArenaFits
  unfold planAt
  rw [if_neg (by omega), if_neg (by omega), if_neg (by omega), if_neg (by omega)]

theorem plan_ok (h : t.plan sh key val tombstone = .ok p) :
    Planned sh t p key (if tombstone then 0 else val.length) ∧ key ≠ [] ∧ key.length ≤ sh.KEY_MAX := by
  unfold plan at h
  generalize (if tombstone = true then 0 else val.length) = valLen at h ⊢
  dsimp only at h
  split_ifs at h with h1 h2 h3 h4 h5
  obtain ⟨h6, h7, h8⟩ := planAt_ok h
  exact ⟨⟨h6, h7, h8⟩, by simpa using h1, by omega⟩

theorem checkBound_ok {bound : Bytes} (h : checkBound sh bound = .ok ()) : bound ≠ [] ∧ bound.length ≤ sh.KEY_MAX := by
  unfold checkBound at h
  split_ifs at h with h1 h2
  exact ⟨by simpa using h1, by omega⟩

theorem planRangeDel_ok {start stop : Bytes} (h : t.planRangeDel sh start stop = .ok p) :
    Planned sh t p start stop.length ∧ start < stop ∧ start ≠ [] ∧ start.length ≤ sh.KEY_MAX ∧
      stop.length ≤ sh.KEY_MAX := by
  unfold planRangeDel at h
  cases h1 : checkBound sh start with
  | error e => rw [h1] at h; cases h
  | ok u =>
    cases h2 : checkBound sh stop with
    | error e => rw [h1, h2] at h; cases h
    | ok v =>
      rw [h1, h2] at h
      change (if start ≥ stop then .error .emptyKey else t.planAt sh (t.lowerBound start) start.length stop.length) = _ at h
      split_ifs at h with h3
      obtain ⟨h4, h5, h6⟩ := planAt_ok h
      obtain ⟨h7, h8⟩ := checkBound_ok h1
      exact ⟨⟨h4, h5, h6⟩, not_le.mp h3, h7, h8, (checkBound_ok h2).2⟩

/-- The bytes of an intact slot do not change when the arena grows. -/
theorem bytesAt_append {arena more : Bytes} {off len : Nat} (h : off + len ≤ arena.length) (slots slots' : List Slot)
    (n n' : Nat) : (MemTable.mk slots' (arena ++ more) n').bytesAt off len = (MemTable.mk slots arena n).bytesAt off len := by
  show ((arena ++ more).drop off).take len = (arena.drop off).take len
  rw [List.drop_append_of_le_length (by omega), List.take_append_of_le_length (by rw [List.length_drop]; omega)]

/-- An insert puts one entry in front of its key's run and leaves the others as they are. -/
theorem iter_apply (ht : t.Intact) {valLen : Nat} (hp : Planned sh t p key valLen) (hv : valLen ≤ val.length) (seq : Nat)
    (tombstone rangeDel : Bool) (expireAt : Nat) :
    (t.apply p key val seq tombstone rangeDel expireAt).Intact ∧
      (t.apply p key val seq tombstone rangeDel expireAt).iter = t.iter.take (t.lowerBound key) ++
        ⟨key, val.take valLen, seq, tombstone, rangeDel, expireAt⟩ :: t.iter.drop (t.lowerBound key) := by
  obtain ⟨rfl, -, -⟩ := hp
  have hval : (val.take valLen).length = valLen := by rw [List.length_take]; omega
  constructor
  · intro s hs
    have hs' : s = ⟨t.arenaLen, key.length, t.arenaLen + key.length, valLen, seq, tombstone, rangeDel, expireAt⟩ ∨
        s ∈ t.slots := by
      rcases List.mem_append.mp hs with hs | hs
      · exact Or.inr (List.mem_of_mem_take hs)
      · exact (List.mem_cons.mp hs).imp id List.mem_of_mem_drop
    simp only [apply, List.length_append, List.take_length, hval]
    rcases hs' with rfl | hs'
    · exact ⟨by simp [arenaLen], by simp [arenaLen]⟩
    · have := ht s hs'
      omega
  · have hold : ∀ s ∈ t.slots, (t.apply ⟨t.lowerBound key, t.arenaLen, key.length, t.arenaLen + key.length, valLen⟩ key val
        seq tombstone rangeDel expireAt).entryOf s = t.entryOf s := by
      intro s hs
      obtain ⟨h1, h2⟩ := ht s hs
      simp only [entryOf, slotKey, slotVal, apply, List.append_assoc]
      rw [bytesAt_append h1 t.slots _ t.maxSeq, bytesAt_append h2 t.slots _ t.maxSeq]
    have hnew : (t.apply ⟨t.lowerBound key, t.arenaLen, key.length, t.arenaLen + key.length, valLen⟩ key val
        seq tombstone rangeDel expireAt).entryOf
        ⟨t.arenaLen, key.length, t.arenaLen + key.length, valLen, seq, tombstone, rangeDel, expireAt⟩ =
        ⟨key, val.take valLen, seq, tombstone, rangeDel, expireAt⟩ := by
      have h1 : ((t.arena ++ key ++ val.take valLen).drop t.arenaLen).take key.length = key := by
        rw [List.append_assoc, arenaLen, List.drop_left, List.take_left]
      have h2 : ((t.arena ++ key ++ val.take valLen).drop (t.arenaLen + key.length)).take valLen = val.take valLen := by
        rw [arenaLen, ← List.length_append, List.drop_left, List.take_of_length_le (by omega)]
      simp only [entryOf, slotKey, slotVal, bytesAt, apply, List.take_length, h1, h2]
    simp only [iter]
    rw [show (t.apply ⟨t.lowerBound key, t.arenaLen, key.length, t.arenaLen + key.length, valLen⟩ key val seq tombstone
      rangeDel expireAt).slots = t.slots.take (t.lowerBound key) ++
        ⟨t.arenaLen, key.length, t.arenaLen + key.length, valLen, seq, tombstone, rangeDel, expireAt⟩ ::
        t.slots.drop (t.lowerBound key) from rfl, List.map_append, List.map_cons, hnew, List.map_take, List.map_drop]
    congr 1
    · congr 1
      exact List.map_congr_left hold
    · congr 2
      exact List.map_congr_left hold

end MemTable

end Horton
