import Horton.Manifest.Basic

/-!
# Table slots

The slot allocator of `slots.rs`: the table region as equal slots, one table each, with a bitmap of the slots that hold
a live table and one of the slots a compaction job has reserved.
-/

namespace Horton

structure SlotMap where
  base : Nat
  slotBlocks : Nat
  slots : Nat
  used : Nat
  reserved : Nat
  hint : Nat
  deriving DecidableEq, Repr

namespace SlotMap

def MAX_SLOTS : Nat := 64

def new : SlotMap := ⟨0, 0, 0, 0, 0, 0⟩

/-- Lays `[start, stop)` out as `slots` equal slots, all free. -/
def layout (start stop slots minBlocks : Nat) : Option SlotMap :=
  if slots = 0 ∨ slots > MAX_SLOTS ∨ stop ≤ start then none
  else
    let slotBlocks := (stop - start) / slots
    if slotBlocks = 0 ∨ slotBlocks < minBlocks then none else some ⟨start, slotBlocks, slots, 0, 0, 0⟩

def slotBase (s : SlotMap) (slot : Nat) : Nat := s.base + slot * s.slotBlocks

/-- The slot that holds the run of `blocks` blocks from `firstBlock` on entirely. -/
def slotOf (s : SlotMap) (firstBlock blocks : Nat) : Option Nat :=
  if s.slotBlocks = 0 ∨ firstBlock < s.base ∨ blocks = 0 then none
  else
    let slot := (firstBlock - s.base) / s.slotBlocks
    if slot ≥ s.slots then none
    else if firstBlock + blocks ≤ U64_MAX ∧ firstBlock + blocks ≤ s.base + (slot + 1) * s.slotBlocks then some slot
    else none

/-- Marks a slot as holding a live table; `none` when it is out of range or already used. -/
def markUsed (s : SlotMap) (slot : Nat) : Option SlotMap :=
  if slot ≥ s.slots ∨ bit s.used slot then none else some { s with used := s.used ||| 2 ^ slot }

def setHintAfter (s : SlotMap) (slot : Nat) : SlotMap :=
  if s.slots > 0 then { s with hint := (slot + 1) % s.slots } else s

/-- The next slot neither used nor reserved, next-fit from the hint. -/
def findFree (s : SlotMap) : Option Nat :=
  ((List.range s.slots).map fun i => (s.hint + i) % s.slots).find? fun slot => !bit (s.used ||| s.reserved) slot

def claim (s : SlotMap) (slot : Nat) : SlotMap :=
  if slot < s.slots then { s with used := s.used ||| 2 ^ slot, hint := (slot + 1) % s.slots } else s

def reserve (s : SlotMap) : Option (Nat × SlotMap) :=
  s.findFree.map fun slot => (slot, { s with reserved := s.reserved ||| 2 ^ slot, hint := (slot + 1) % s.slots })

def commit (s : SlotMap) (slot : Nat) : SlotMap :=
  if slot < s.slots then { s with reserved := s.reserved &&& (U64_MAX ^^^ 2 ^ slot), used := s.used ||| 2 ^ slot } else s

def release (s : SlotMap) (slot : Nat) : SlotMap :=
  if slot < s.slots then { s with reserved := s.reserved &&& (U64_MAX ^^^ 2 ^ slot) } else s

def releaseAll (s : SlotMap) : SlotMap := { s with reserved := 0 }

def free (s : SlotMap) (slot : Nat) : SlotMap :=
  if slot < s.slots then { s with used := s.used &&& (U64_MAX ^^^ 2 ^ slot) } else s

def usedSlots (s : SlotMap) : Nat := countOnes s.used

def reservedSlots (s : SlotMap) : Nat := countOnes s.reserved

def freeSlots (s : SlotMap) : Nat := s.slots - countOnes (s.used ||| s.reserved)

end SlotMap

end Horton
