import Horton.Lib.Device
import Horton.Sstable.Format

/-!
# The table writer

`TableWriter` and `RdelWriter` of `sstable.rs` as programs on their own state.  `data` is the whole staging block: a
data block is sealed in place, compressed or not, before it is handed to the device, and the buffer keeps that content
when the write does not end well.  Of the index and the rdel staging block only the used part is kept; sealing them
never touches it.
-/

namespace Horton

open BlockDev

inductive PushOutcome
  | buffered
  | blockSealed
  deriving DecidableEq, Repr

structure FinishedTable where
  dataBlocks : Nat
  entryCount : Nat
  maxSeq : Nat
  minSeq : Nat
  firstKey : Bytes
  lastKey : Bytes
  deriving DecidableEq, Repr

structure TableWriter where
  base : Nat
  k : Nat
  data : Bytes
  index : Bytes
  bloom : Bytes
  restarts : List Nat
  payload : Nat
  n : Nat
  dataBlocks : Nat
  entryCount : Nat
  blockFirst : Bytes
  blockMaxSeq : Nat
  firstKey : Bytes
  lastKey : Bytes
  maxSeq : Nat
  minSeq : Nat
  dataLimit : Nat
  deriving DecidableEq, Repr

namespace TableWriter

open Sstable

variable (sh : Shape)

def new (base k : Nat) : TableWriter where
  base := base
  k := k
  data := Bytes.zeros sh.BLOCK
  index := []
  bloom := Bytes.zeros sh.BLOOM_BYTES
  restarts := []
  payload := 0
  n := 0
  dataBlocks := 0
  entryCount := 0
  blockFirst := []
  blockMaxSeq := 0
  firstKey := []
  lastKey := []
  maxSeq := 0
  minSeq := U64_MAX
  dataLimit := U64_MAX

def withBlockLimit (w : TableWriter) (dataBlocks : Nat) : TableWriter := { w with dataLimit := dataBlocks }

/-- The staging state behind a sealed block with index entry `index`. -/
def nextBlock (w : TableWriter) (index : Bytes) : TableWriter :=
  { w with
    index := index
    dataBlocks := w.dataBlocks + 1
    payload := 0
    n := 0
    restarts := []
    blockFirst := []
    blockMaxSeq := 0
    data := Bytes.zeros sh.BLOCK }

/-- Seals the staging block, writes it and records its index entry. -/
def sealCurrent (compressed : Bool) : Prog TableWriter Error Unit := do
  let w ← Prog.get
  if w.base + w.dataBlocks > U64_MAX then Prog.throw .tableTooLarge
  else
    let block ← Prog.ofExcept (sealData sh w.data w.payload w.restarts compressed)
    Prog.set { w with data := block }
    Prog.writeBlock .device (w.base + w.dataBlocks) block
    let index ← Prog.ofExcept (appendIndex sh w.index w.blockFirst (w.base + w.dataBlocks) w.blockMaxSeq)
    Prog.modify fun w => w.nextBlock sh index

/-- The end of `push`: the entry of `elen` bytes goes behind the staged ones. -/
def stageEntry (w : TableWriter) (e : SstEntry) (elen : Nat) : TableWriter :=
  { w with
    restarts := if w.n % RESTART_INTERVAL = 0 then w.restarts ++ [w.payload] else w.restarts
    data := Bytes.splice w.data w.payload (encodeEntry e)
    blockFirst := if w.blockFirst = [] then e.key else w.blockFirst
    blockMaxSeq := max w.blockMaxSeq e.seq
    firstKey := if w.firstKey = [] then e.key else w.firstKey
    lastKey := e.key
    maxSeq := max w.maxSeq e.seq
    minSeq := min w.minSeq e.seq
    bloom := bloomAdd w.bloom e.key w.k
    payload := w.payload + elen
    n := w.n + 1
    entryCount := w.entryCount + 1 }

/-- Pushes one entry, sealing the staging block first when the entry no longer fits. -/
def push (e : SstEntry) (compressed : Bool) : Prog TableWriter Error PushOutcome := do
  let elen ← Prog.ofExcept (entrySizes e)
  if e.key.length > sh.KEY_MAX then Prog.throw (.keyTooLarge e.key.length sh.KEY_MAX)
  else
    let w ← Prog.get
    let sealed ← do
      if entryFits sh w.payload w.n elen then pure .buffered
      else if w.n = 0 then Prog.throw .tableTooLarge
      -- The block being sealed and the one this entry opens must both fit the run.
      else if w.dataBlocks + 2 > w.dataLimit then Prog.throw .tableTooLarge
      else
        sealCurrent sh compressed
        if entryFits sh 0 0 elen then pure .blockSealed else Prog.throw .tableTooLarge
    let w ← Prog.get
    if w.n % RESTART_INTERVAL = 0 ∧ w.payload > U16_MAX then Prog.throw .tableTooLarge
    else
      Prog.set (w.stageEntry e elen)
      return sealed

/-- Seals the trailing partial block, if any; returns the number of data blocks. -/
def sealTail (compressed : Bool) : Prog TableWriter Error Nat := do
  let w ← Prog.get
  if w.n > 0 then
    if w.dataBlocks ≥ w.dataLimit then Prog.throw .tableTooLarge else sealCurrent sh compressed
  let w ← Prog.get
  return w.dataBlocks

/-- The footer's payload. -/
def footer (indexId bloomId entryCount k rdelBlocks minSeq : Nat) : Bytes :=
  Bytes.leBytes 8 SSTABLE_MAGIC ++ Bytes.leBytes 8 indexId ++ Bytes.leBytes 8 bloomId ++ Bytes.leBytes 8 entryCount ++
    Bytes.leBytes 1 k ++ Bytes.leBytes 4 rdelBlocks ++ Bytes.leBytes 8 minSeq

/-- Writes the bloom, index and footer blocks and flushes the device. -/
def finishMeta (rdelBlocks rdelMinSeq : Nat) : Prog TableWriter Error FinishedTable := do
  let w ← Prog.get
  let minSeq := min w.minSeq rdelMinSeq
  let bloomId := w.base + w.dataBlocks + rdelBlocks
  if bloomId > U64_MAX then Prog.throw .tableTooLarge
  else
    Prog.set { w with data := sealPlain sh w.bloom }
    Prog.writeBlock .device bloomId (sealPlain sh w.bloom)
    if bloomId + 1 > U64_MAX then Prog.throw .tableTooLarge
    else
      Prog.writeBlock .device (bloomId + 1) (sealPlain sh w.index)
      if bloomId + 2 > U64_MAX then Prog.throw .tableTooLarge
      else
        let footer := sealPlain sh (footer (bloomId + 1) bloomId w.entryCount w.k rdelBlocks minSeq)
        Prog.set { w with data := footer }
        Prog.writeBlock .device (bloomId + 2) footer
        Prog.flush .device
        return ⟨w.dataBlocks, w.entryCount, w.maxSeq, minSeq, w.firstKey, w.lastKey⟩

end TableWriter

structure RdelWriter where
  base : Nat
  buf : Bytes
  count : Nat
  blocks : Nat
  limit : Nat
  deriving DecidableEq, Repr

namespace RdelWriter

open Sstable

variable (sh : Shape)

def new (base : Nat) : RdelWriter := ⟨base, [], 0, 0, U32_MAX⟩

def withBlockLimit (w : RdelWriter) (blocks : Nat) : RdelWriter := { w with limit := blocks }

/-- Seals and writes the staged tombstones. -/
def sealBlock : Prog RdelWriter Error Unit := do
  let w ← Prog.get
  if w.blocks ≥ w.limit then Prog.throw .tableTooLarge
  else if w.base + w.blocks > U64_MAX then Prog.throw .tableTooLarge
  else
    let block ← Prog.ofExcept (sealRdel sh w.buf w.count)
    Prog.writeBlock .device (w.base + w.blocks) block
    Prog.modify fun w => { w with blocks := w.blocks + 1, buf := [], count := 0 }

def push (r : RdelEntry) : Prog RdelWriter Error Unit := do
  if r.start.length > U16_MAX then Prog.throw (.keyTooLarge r.start.length U16_MAX)
  else if r.stop.length > U16_MAX then Prog.throw (.keyTooLarge r.stop.length U16_MAX)
  else
    let el := rdelEntryLen r.start.length r.stop.length
    if el + RDEL_TRAILER > sh.BLOCK then Prog.throw .tableTooLarge
    else
      let w ← Prog.get
      if w.buf.length + el + RDEL_TRAILER > sh.BLOCK then sealBlock sh
      Prog.modify fun w => { w with buf := w.buf ++ encodeRdel r, count := w.count + 1 }

/-- Seals the trailing partial block; returns the number of blocks. -/
def finish : Prog RdelWriter Error Nat := do
  let w ← Prog.get
  if w.count > 0 then sealBlock sh
  let w ← Prog.get
  return w.blocks

end RdelWriter

namespace Sstable

variable (sh : Shape)

/-- Pushes entries one after the other. -/
def pushAll (compressed : Bool) : List SstEntry → Prog TableWriter Error Unit
  | [] => pure ()
  | e :: es => do
    let _ ← TableWriter.push sh e compressed
    pushAll compressed es

/-- The same with a decision for every entry whether a block sealed on the way to it is compressed. -/
def pushEach : List (SstEntry × Bool) → Prog TableWriter Error Unit
  | [] => pure ()
  | (e, compressed) :: es => do
    let _ ← TableWriter.push sh e compressed
    pushEach es

theorem pushAll_eq (compressed : Bool) (es : List SstEntry) :
    pushAll sh compressed es = pushEach sh (es.map (·, compressed)) := by
  induction es with
  | nil => rfl
  | cons e es ih => rw [pushAll, List.map_cons, pushEach, ih]

def pushRdels : List RdelEntry → Prog RdelWriter Error Unit
  | [] => pure ()
  | r :: rs => do
    RdelWriter.push sh r
    pushRdels rs

/-- The range-tombstone section at `base`; returns its number of blocks. -/
def writeRdelBlocks {σ : Type} (base : Nat) (rdels : List RdelEntry) : Prog σ Error Nat := do
  let (n, _) ← Prog.runLocal (RdelWriter.new base) do
    pushRdels sh rdels
    RdelWriter.finish sh
  return n

end Sstable

end Horton
