import Horton.Scan.Merge
import Horton.Scan.RevCursor
import Mathlib.Algebra.Order.BigOperators.Group.List
import Mathlib.Data.List.TakeWhile

/-!
# Reverse scans

`RevScan` of `scan.rs`: `seekPrev` parks the memtable head and one cursor for each table that overlaps the range, `prev`
merges them downwards.  The walk over the memtable meets the oldest version of a key first, and takes the newest visible one
of the whole run.

`Standing` is the place of every source below a key; with it a reverse scan has its sources in their places (`places`).
-/

namespace Horton

open BlockDev Sstable

namespace Scans

/-- The memtable head, when there is one, and the slots below its run, from high to low. -/
structure MemWalk where
  head : Option Entry
  below : List Entry
  deriving DecidableEq, Repr

structure RevScan where
  lower : Option Bytes
  maxSeq : Nat
  now : Nat
  mem : MemWalk
  cursors : List RevCursor
  deriving DecidableEq, Repr

namespace RevScan

variable (sh : Shape)

/-- The run of `key` on the way down: its newest visible version, and the slots below. -/
def runDown (maxSeq : Nat) (key : Bytes) : List Entry → Option Entry → MemWalk
  | [], best => ⟨best, []⟩
  | e :: slots, best =>
    if e.key ≠ key then ⟨best, e :: slots⟩
    -- Lower index = newer: the last hit on the way down wins.
    else runDown maxSeq key slots (if memSees maxSeq e then some e else best)

/-- Parks on the greatest key of the slots that has a visible version. -/
def advanceMem (maxSeq : Nat) : Nat → List Entry → MemWalk
  | 0, slots => ⟨none, slots⟩
  | _ + 1, [] => ⟨none, []⟩
  | fuel + 1, e :: slots =>
    let run := runDown maxSeq e.key (e :: slots) none
    if run.head.isSome then run else advanceMem maxSeq fuel run.below

/-- Moves the memtable head down while it sits on `key`. -/
def passMem (maxSeq : Nat) (key : Bytes) : Nat → MemWalk → MemWalk
  | 0, w => w
  | fuel + 1, w =>
    if w.head.any (·.key = key) then
      if w.below.isEmpty then ⟨none, []⟩ else passMem maxSeq key fuel (advanceMem maxSeq w.below.length w.below)
    else w

def memHead (db : Db) (w : MemWalk) : Option Head :=
  w.head.map fun e =>
    ⟨e.key, .memtable db.cfg.nodeId e.seq, e.tombstone, e.val.length, e.expireAt, .mem e.val⟩

/-- The live heads: the memtable, then the cursors in level-major order. -/
def heads (db : Db) (s : RevScan) : List Head := (memHead db s.mem).toList ++ s.cursors.filterMap RevCursor.head

def advancePastKeyRev (db : Db) (key : Bytes) : Prog RevScan Error Unit := do
  let s ← Prog.get
  Prog.set { s with mem := passMem s.maxSeq key (s.mem.below.length + 1) s.mem }
  Prog.zoom cursors (fun cs s => { s with cursors := cs }) (Prog.each (RevCursor.passKey sh db s.maxSeq key))

/-- The merge downwards. -/
def merge (db : Db) : Merge RevScan where
  heads := heads db
  before key key' := decide (key' < key)
  ended s key := s.lower.any (key ≤ ·)
  maxSeq := maxSeq
  now := now
  pass := advancePastKeyRev sh db
  rounds _ := db.table.slots.length + ((db.scanOrder sh).map fun t => t.blockCount * sh.BLOCK).sum

def prev (db : Db) (keyBuf valBuf : Nat) : Prog RevScan Error (Option (Bytes × Bytes)) :=
  (merge sh db).yield sh db keyBuf valBuf

/-- Adds a cursor over `tref`, parked on its greatest visible entry at or below `start`. -/
def addCursorRev (db : Db) (tref : TableRef) (start : Bytes) : Prog RevScan Error Unit := do
  match ← (RevCursor.init sh tref start).run .device with
  | none => return ()
  | some cur => do
    let s ← Prog.get
    if s.cursors.length ≥ sh.LEVELS * sh.TABLES then Prog.throw .corruptManifest
    else do
      Prog.set { s with cursors := s.cursors ++ [cur] }
      Prog.zoom (fun s => s.cursors.getLastD cur) (fun cur s => { s with cursors := s.cursors.dropLast ++ [cur] })
        (RevCursor.parkCursor sh db (RevCursor.ceiling start) s.maxSeq)

/-- Tables outside of the range cost nothing. -/
def overlaps (start : Bytes) (lower : Option Bytes) (tref : TableRef) : Bool :=
  (start.isEmpty || !decide (start < tref.firstKey)) && !lower.any (tref.lastKey ≤ ·)

def addCursors (db : Db) (start : Bytes) : List TableRef → Prog RevScan Error Unit
  | [] => pure ()
  | tref :: ts => do
    let s ← Prog.get
    if overlaps start s.lower tref then addCursorRev sh db tref start else pure ()
    addCursors db start ts

/-- The slots at or below `start`, from high to low: the walk starts at the end of its run. -/
def memStart (db : Db) (start : Bytes) : List Entry :=
  if start.isEmpty then db.table.iter.reverse
  else
    let lo := db.table.lowerBound start
    let run := (db.table.iter.drop lo).takeWhile (·.key = start)
    (db.table.iter.take (lo + run.length)).reverse

def seekPrevWithTime (db : Db) (start : Bytes) (lower : Option Bytes) (maxSeq now : Nat) : Prog RevScan Error Unit := do
  if !db.opened then Prog.throw .notOpen
  else if start.length > sh.KEY_MAX then Prog.throw (.keyTooLarge start.length sh.KEY_MAX)
  else if lower.any (·.length > sh.KEY_MAX) then Prog.throw (.keyTooLarge (lower.getD []).length sh.KEY_MAX)
  else do
    let slots := memStart db start
    Prog.set ⟨lower, maxSeq, now, advanceMem maxSeq slots.length slots, []⟩
    addCursors sh db start (db.scanOrder sh)

/-! ### The memtable -/

variable {sh} {blocks : Nat → Bytes} {c : Contents} {db : Db} {start : Bytes} {lower : Option Bytes} {maxSeq now : Nat}
  {last : Option Bytes} {s : RevScan} {key k : Bytes} {l : List Entry}

/-- The keys a reverse scan from `start` has still to visit below `last`. -/
def toVisit (start : Bytes) (last : Option Bytes) (key : Bytes) : Bool :=
  boundOk (RevCursor.ceiling start) key && Merge.region (fun k k' => decide (k' < k)) last key

theorem toVisit_mono {key' : Bytes} (h : toVisit start last key = true) (hle : key' ≤ key) :
    toVisit start last key' = true := by
  unfold toVisit Merge.region at *
  obtain ⟨hok, hlast⟩ := Bool.and_eq_true_iff.mp h
  refine Bool.and_eq_true_iff.mpr ⟨boundOk_mono hok hle, ?_⟩
  cases last with
  | none => rfl
  | some b => exact decide_eq_true (lt_of_le_of_lt hle (of_decide_eq_true hlast))

theorem toVisit_some (h : toVisit start last k = true) : toVisit start (some k) key = decide (key < k) := by
  have hok := (Bool.and_eq_true_iff.mp h).1
  unfold toVisit Merge.region
  rw [Option.all_some, Bool.and_eq_right_iff_imp, decide_eq_true_eq]
  exact fun hlt => boundOk_mono hok hlt.le

/-- A run on the way down. -/
theorem runDown_spec (hs : l.Pairwise fun a b => a.key ≤ b.key) (hle : ∀ e ∈ l, e.key ≤ key) (best : Option Entry) :
    runDown maxSeq key l.reverse best =
      ⟨((l.filter (memSees maxSeq)).find? fun e => decide (e.key = key)).or best,
        (l.filter fun e => decide (e.key < key)).reverse⟩ := by
  induction l using List.reverseRecOn generalizing best with
  | nil => rfl
  | append_singleton l e ih =>
    rw [List.pairwise_append] at hs
    have hel : ∀ x ∈ l, x.key ≤ e.key := fun x hx => hs.2.2 x hx e (List.mem_singleton_self e)
    rw [List.reverse_append, List.reverse_singleton, List.singleton_append, runDown]
    by_cases hkey : e.key = key
    · rw [if_neg (not_not.mpr hkey), ih hs.1 fun x hx => hle x (List.mem_append_left _ hx), List.filter_append,
        List.find?_append, List.filter_append]
      have hno : [e].filter (fun e => decide (e.key < key)) = [] := by simp [hkey]
      rw [hno, List.append_nil]
      congr 1
      cases hsee : memSees maxSeq e with
      | true =>
        rw [if_pos rfl, Option.or_assoc]
        simp [hsee, hkey]
      | false =>
        rw [if_neg Bool.false_ne_true, Option.or_assoc]
        simp [hsee]
    · have hlt : e.key < key := lt_of_le_of_ne (hle e (by simp)) hkey
      have hall : ∀ x ∈ l ++ [e], x.key < key := by
        intro x hx
        rcases List.mem_append.mp hx with hx | hx
        · exact lt_of_le_of_lt (hel x hx) hlt
        · rw [List.mem_singleton.mp hx]
          exact hlt
      have hnone : ((l ++ [e]).filter (memSees maxSeq)).find? (fun e => decide (e.key = key)) = none := by
        rw [List.find?_eq_none]
        intro x hx
        simpa using ne_of_lt (hall x (List.mem_of_mem_filter hx))
      rw [if_pos hkey, hnone, Option.none_or, List.filter_eq_self.mpr fun x hx => decide_eq_true (hall x hx),
        List.reverse_append]
      rfl

/-- The walk stands on the greatest key of `l` that has a visible version, with the rest of `l` below it. -/
structure Walked (l : List Entry) (maxSeq : Nat) (w : MemWalk) : Prop where
  head : IsHead (fun a b : Bytes => b ≤ a) Entry.key (l.filter (memSees maxSeq)) (fun _ => True) w.head
  below : ∀ v, w.head = some v → w.below = (l.filter fun e => decide (e.key < v.key)).reverse

theorem advanceMem_spec {fuel : Nat} (hs : l.Pairwise fun a b => a.key ≤ b.key) (hf : l.length ≤ fuel) :
    Walked l maxSeq (advanceMem maxSeq fuel l.reverse) := by
  induction fuel generalizing l with
  | zero =>
    obtain rfl := List.length_eq_zero_iff.mp (by omega : l.length = 0)
    exact ⟨fun x hx => absurd hx List.not_mem_nil, fun v hv => absurd hv (by simp [advanceMem])⟩
  | succ fuel ih =>
    induction l using List.reverseRecOn with
    | nil => exact ⟨fun x hx => absurd hx List.not_mem_nil, fun v hv => absurd hv (by simp [advanceMem])⟩
    | append_singleton l e _ =>
      have hel : ∀ x ∈ l ++ [e], x.key ≤ e.key := by
        intro x hx
        rw [List.pairwise_append] at hs
        rcases List.mem_append.mp hx with hx | hx
        · exact hs.2.2 x hx e (List.mem_singleton_self e)
        · rw [List.mem_singleton.mp hx]
      have hrun : runDown maxSeq e.key (l ++ [e]).reverse none = _ := runDown_spec hs hel none
      rw [Option.or_none] at hrun
      have hrev : (l ++ [e]).reverse = e :: l.reverse := by simp
      rw [hrev] at hrun ⊢
      rw [advanceMem, hrun]
      dsimp only
      cases hfind : ((l ++ [e]).filter (memSees maxSeq)).find? fun x => decide (x.key = e.key) with
      | some v =>
        rw [Option.isSome_some, if_pos rfl]
        have hkey : v.key = e.key := of_decide_eq_true (List.find?_eq_some_iff_append.mp hfind).1
        constructor
        · refine ⟨trivial, ?_, fun x hx _ => ?_⟩
          · rw [hkey]
            exact hfind
          · rw [hkey]
            exact hel x (List.mem_of_mem_filter hx)
        · intro v' hv'
          rw [← Option.some.inj hv', hkey]
      | none =>
        rw [Option.isSome_none, if_neg Bool.false_ne_true]
        have hsub : ((l ++ [e]).filter fun x => decide (x.key < e.key)).length ≤ fuel := by
          rw [List.filter_append, List.length_append]
          have hno : [e].filter (fun x => decide (x.key < e.key)) = [] := by simp
          have hlen := List.length_filter_le (fun x : Entry => decide (x.key < e.key)) l
          rw [hno, List.length_nil]
          rw [List.length_append, List.length_singleton] at hf
          omega
        obtain ⟨hhead, hbelow⟩ := ih (hs.sublist List.filter_sublist) hsub
        have hsame : ((l ++ [e]).filter fun x => decide (x.key < e.key)).filter (memSees maxSeq) =
            (l ++ [e]).filter (memSees maxSeq) := by
          rw [List.filter_filter]
          refine List.filter_congr fun x hx => ?_
          cases hsee : memSees maxSeq x with
          | false => rfl
          | true =>
            rw [Bool.true_and, decide_eq_true_eq]
            refine lt_of_le_of_ne (hel x hx) fun hkey => ?_
            have hnot := List.find?_eq_none.mp hfind x (List.mem_filter.mpr ⟨hx, hsee⟩)
            exact hnot (decide_eq_true hkey)
        refine ⟨hsame ▸ hhead, fun v hv => ?_⟩
        rw [hbelow v hv, List.filter_filter]
        congr 1
        refine List.filter_congr fun x hx => ?_
        have hvmem : v ∈ (l ++ [e]).filter fun x => decide (x.key < e.key) := by
          rw [hv] at hhead
          exact List.mem_of_mem_filter hhead.mem
        have hvlt : v.key < e.key := of_decide_eq_true (List.mem_filter.mp hvmem).2
        by_cases hlt : x.key < v.key
        · simp [hlt, hlt.trans hvlt]
        · simp [hlt]

/-- The walk over the memtable in the region `P`. -/
structure MemAt (db : Db) (maxSeq : Nat) (P : Bytes → Bool) (w : MemWalk) : Prop where
  head : IsHead (fun a b : Bytes => b ≤ a) Entry.key (db.table.iter.filter (memSees maxSeq)) (P · = true) w.head
  below : ∀ v, w.head = some v → w.below = (db.table.iter.filter fun e => decide (e.key < v.key)).reverse

theorem memAt_advance (hs : db.table.iter.Pairwise Entry.Before) {P : Bytes → Bool} {slots : List Entry} {fuel : Nat}
    (hmono : ∀ a b, P a = true → b ≤ a → P b = true) (hslots : slots = (db.table.iter.filter fun e => P e.key).reverse)
    (hf : slots.length ≤ fuel) : MemAt db maxSeq P (advanceMem maxSeq fuel slots) := by
  rw [hslots, List.length_reverse] at hf
  rw [hslots]
  have hwalked : Walked _ maxSeq _ := advanceMem_spec ((key_le_of_before hs).sublist List.filter_sublist) hf
  obtain ⟨hhead, hbelow⟩ := hwalked
  generalize advanceMem maxSeq fuel (db.table.iter.filter fun e => P e.key).reverse = w at hhead hbelow
  have hin : ∀ v, w.head = some v → P v.key = true := by
    intro v hv
    rw [hv] at hhead
    exact (List.mem_filter.mp (List.mem_of_mem_filter hhead.mem)).2
  constructor
  · cases hw : w.head with
    | none =>
      rw [hw] at hhead
      intro x hx hP
      obtain ⟨hmem, hsee⟩ := List.mem_filter.mp hx
      exact hhead x (List.mem_filter.mpr ⟨List.mem_filter.mpr ⟨hmem, hP⟩, hsee⟩) trivial
    | some v =>
      have hPv := hin v hw
      rw [hw] at hhead
      refine ⟨hPv, ?_, fun x hx hP => ?_⟩
      · rw [← hhead.2.1, List.find?_filter, List.find?_filter, List.find?_filter]
        congr 1
        funext x
        rw [decide_eq_decide]
        constructor
        · rintro ⟨hsee, hkey⟩
          refine ⟨?_, decide_eq_true ⟨hsee, hkey⟩⟩
          rw [of_decide_eq_true hkey]
          exact hPv
        · exact fun h => of_decide_eq_true h.2
      · obtain ⟨hmem, hsee⟩ := List.mem_filter.mp hx
        exact hhead.2.2 x (List.mem_filter.mpr ⟨List.mem_filter.mpr ⟨hmem, hP⟩, hsee⟩) trivial
  · intro v hv
    rw [hbelow v hv, List.filter_filter]
    congr 1
    refine List.filter_congr fun x _ => ?_
    by_cases hlt : x.key < v.key
    · simp [hlt, hmono _ _ (hin v hv) hlt.le]
    · simp [hlt]

theorem memStart_eq (hs : db.table.iter.Pairwise Entry.Before) (start : Bytes) :
    memStart db start = (db.table.iter.filter fun e => boundOk (RevCursor.ceiling start) e.key).reverse := by
  unfold memStart RevCursor.ceiling
  by_cases hempty : start.isEmpty = true
  · have hall : db.table.iter.filter (fun e => boundOk none e.key) = db.table.iter := List.filter_eq_self.mpr fun _ _ => rfl
    rw [if_pos hempty, if_pos hempty, hall]
  · rw [if_neg hempty, if_neg hempty]
    dsimp only
    congr 1
    have hsplit := List.take_append_drop (db.table.lowerBound start) db.table.iter
    have hrun := List.takeWhile_append_dropWhile (p := fun e : Entry => decide (e.key = start))
      (l := db.table.iter.drop (db.table.lowerBound start))
    have hlow : ∀ e ∈ db.table.iter.take (db.table.lowerBound start), boundOk (some (start, true)) e.key = true := by
      intro e he
      unfold boundOk
      simp [MemTable.key_lt_of_take he]
    have hon : ∀ e ∈ (db.table.iter.drop (db.table.lowerBound start)).takeWhile (·.key = start),
        boundOk (some (start, true)) e.key = true := by
      intro e he
      have hkey := List.mem_takeWhile_imp he
      unfold boundOk
      simp [of_decide_eq_true hkey]
    have habove : ∀ e ∈ (db.table.iter.drop (db.table.lowerBound start)).dropWhile (·.key = start),
        boundOk (some (start, true)) e.key = false := by
      have hsorted := (key_le_of_before hs).sublist (List.drop_sublist (db.table.lowerBound start) db.table.iter)
      intro e he
      have hge := MemTable.key_le_of_drop hs ((List.dropWhile_sublist _).subset he)
      have hne : e.key ≠ start := by
        have hsorted' := hsorted.sublist (List.dropWhile_sublist fun e : Entry => decide (e.key = start))
        have hhead := List.head?_dropWhile_not (fun e : Entry => decide (e.key = start))
          (db.table.iter.drop (db.table.lowerBound start))
        cases hl : (db.table.iter.drop (db.table.lowerBound start)).dropWhile (·.key = start) with
        | nil =>
          rw [hl] at he
          cases he
        | cons x xs =>
          rw [hl] at he hhead hsorted'
          have hxge : start ≤ x.key := by
            refine MemTable.key_le_of_drop hs ((List.dropWhile_sublist fun e : Entry => decide (e.key = start)).subset ?_)
            rw [hl]
            exact List.mem_cons_self
          have hxne : x.key ≠ start := by simpa using hhead
          have hxlt := lt_of_le_of_ne hxge (Ne.symm hxne)
          rcases List.mem_cons.mp he with rfl | he
          · exact hxne
          · exact ne_of_gt (lt_of_lt_of_le hxlt ((List.pairwise_cons.mp hsorted').1 e he))
      have hgt := lt_of_le_of_ne hge (Ne.symm hne)
      unfold boundOk
      simp [not_lt.mpr hge, hne]
    have htake : db.table.iter.take (db.table.lowerBound start +
        ((db.table.iter.drop (db.table.lowerBound start)).takeWhile (·.key = start)).length) =
        db.table.iter.take (db.table.lowerBound start) ++
          (db.table.iter.drop (db.table.lowerBound start)).takeWhile (·.key = start) := by
      rw [List.take_add]
      congr 1
      exact (List.prefix_iff_eq_take.mp (List.takeWhile_prefix _)).symm
    rw [htake]
    conv_rhs => rw [← hsplit, ← hrun]
    rw [List.filter_append, List.filter_append, List.filter_eq_self.mpr hlow, List.filter_eq_self.mpr hon,
      List.filter_eq_nil_iff.mpr fun e he => by simp [habove e he], List.append_nil]

/-! ### The places of a reverse scan -/

/-- The cursor of a table below `last`. -/
structure Follows (sh : Shape) (blocks : Nat → Bytes) (c : Contents) (maxSeq : Nat) (start : Bytes) (last : Option Bytes)
    (t : TableRef) (cur : RevCursor) : Prop where
  behind : ∃ k bs rdelBlocks minSeq o, TableOn sh blocks t.firstBlock k bs rdelBlocks minSeq ∧ bs.flatten = c.points t.id ∧
    cur.Behind sh t.firstBlock bs o ∧ IsHead (fun a b : Bytes => b ≤ a) SstEntry.key
      ((c.points t.id).filter (passes maxSeq (some t.firstKey))) (toVisit start last · = true) o
  tableId_eq : cur.tableId = t.id
  nodeId_eq : cur.nodeId = t.nodeId
  sealWall_eq : cur.sealWall = t.sealWall

/-- The tables that get a cursor. -/
def reaches (c : Contents) (start : Bytes) (lower : Option Bytes) (t : TableRef) : Bool :=
  overlaps start lower t && (c.points t.id).any fun e => boundOk (RevCursor.ceiling start) e.key

/-- Every source of the scan is below `last`. -/
structure Standing (sh : Shape) (blocks : Nat → Bytes) (c : Contents) (db : Db) (start : Bytes) (lower : Option Bytes)
    (maxSeq now : Nat) (last : Option Bytes) (s : RevScan) : Prop where
  lower_eq : s.lower = lower
  maxSeq_eq : s.maxSeq = maxSeq
  now_eq : s.now = now
  mem : MemAt db maxSeq (toVisit start last) s.mem
  cursors : List.Forall₂ (Follows sh blocks c maxSeq start last) ((db.scanOrder sh).filter (reaches c start lower)) s.cursors

/-- The versions before a scan. -/
def remaining (sh : Shape) (c : Contents) (db : Db) (start : Bytes) (lower : Option Bytes) (maxSeq : Nat)
    (last : Option Bytes) : Nat :=
  (db.table.iter.filter (memSees maxSeq)).countP (fun e => toVisit start last e.key) +
    (((db.scanOrder sh).filter (reaches c start lower)).map fun t =>
      ((c.points t.id).filter (passes maxSeq (some t.firstKey))).countP fun e => toVisit start last e.key).sum

section Sources

variable {t : TableRef} {cur : RevCursor}

/-- The head of a cursor stands for the entry it is parked on. -/
theorem behind_head {bs : List (List SstEntry)} {n rdelBlocks minSeq : Nat} {o : Option SstEntry}
    (hon : TableOn sh blocks t.firstBlock n bs rdelBlocks minSeq) (hn : cur.nodeId = t.nodeId)
      (hw : cur.sealWall = t.sealWall)
    (h : cur.Behind sh t.firstBlock bs o) :
    Option.Rel (fun x e => x.key = e.key ∧ x.For sh blocks (tableHit t e)) cur.head o := by
  unfold RevCursor.head
  cases h with
  | dead hdead =>
    rw [hdead, if_neg Bool.false_ne_true]
    exact .none
  | parked live first found head =>
    obtain ⟨i, b, m, hi, hm, rfl⟩ := found
    rw [if_pos live, hn, hw, head]
    exact .some ⟨rfl, Head.for_entry hon hi hm⟩

theorem Follows.parked (h : Follows sh blocks c maxSeq start last t cur) :
    Parked sh blocks (fun a b : Bytes => b ≤ a) SstEntry.key (tableHit t)
      ((c.points t.id).filter (passes maxSeq (some t.firstKey))) (toVisit start last · = true) cur.head := by
  obtain ⟨n, bs, rdelBlocks, minSeq, o, hon, -, hbehind, hhead⟩ := h.behind
  exact ⟨o, hhead, behind_head hon h.nodeId_eq h.sealWall_eq hbehind⟩

theorem memHead_parked {w : MemWalk} (h : MemAt db maxSeq (toVisit start last) w) :
    Parked sh blocks (fun a b : Bytes => b ≤ a) Entry.key (memHit db) (db.table.iter.filter (memSees maxSeq))
      (toVisit start last · = true) (memHead db w) := by
  refine ⟨w.head, h.head, ?_⟩
  unfold memHead
  cases w.head with
  | none => exact .none
  | some e => exact .some ⟨rfl, Head.for_mem db e⟩

/-- A table without a cursor holds nothing in the range. -/
theorem hit_of_not_reaches (hr : reaches c start lower t = false) (hstart : boundOk (RevCursor.ceiling start) key = true)
    (hlower : lower.any (key ≤ ·) = false) : (Db.tableSource c key maxSeq t).hit = none := by
  unfold Db.tableSource
  by_cases hcov : t.covers key = true
  · rw [if_pos hcov]
    unfold TableRef.covers at hcov
    obtain ⟨hfirst, hlast⟩ := of_decide_eq_true hcov
    have hoverlap : overlaps start lower t = true := by
      unfold overlaps
      have hl : lower.any (t.lastKey ≤ ·) = false := by
        cases lower with
        | none => rfl
        | some b =>
          have hb : ¬key ≤ b := of_decide_eq_false hlower
          exact decide_eq_false fun h => hb (hlast.trans h)
      rw [hl, Bool.not_false, Bool.and_true, Bool.or_eq_true]
      by_cases hempty : start.isEmpty = true
      · exact Or.inl hempty
      · right
        have hle := boundOk_mono hstart hfirst
        unfold RevCursor.ceiling at hle
        rw [if_neg hempty] at hle
        unfold boundOk at hle
        simp only [Bool.true_and, Bool.or_eq_true, decide_eq_true_eq] at hle
        have hle' : t.firstKey ≤ start := hle.elim le_of_lt Eq.le
        simp [not_lt.mpr hle']
    unfold reaches at hr
    rw [hoverlap, Bool.true_and, List.any_eq_false] at hr
    have hnone : visible (c.points t.id) key maxSeq = none := by
      refine visible_eq_none fun e he hkey => hr e he ?_
      rw [hkey]
      exact hstart
    rw [hnone]
    rfl
  · rw [if_neg hcov]

end Sources

/-! ### Stepping past a key -/

variable {d : Device}

/-- A cursor stepped past the next key. -/
theorem Follows.pass {t : TableRef} {cur : RevCursor} (hc : c.On sh d.blocks t)
    (hid : db.manifest.findTable t.id = some t) (h : Follows sh d.blocks c maxSeq start last t cur)
    (hk : toVisit start last k = true) (hmin : ∀ x ∈ cur.head, x.key ≤ k) :
    Reading .device (RevCursor.passKey sh db maxSeq k)
      (fun o cur' => o = .ok () ∧ Follows sh d.blocks c maxSeq start (some k) t cur') cur d := by
  obtain ⟨n, bs, rdelBlocks, minSeq, o, hon, hpoints, hbehind, hhead⟩ := h.behind
  have hsorted : bs.flatten.Pairwise SstEntry.Before := hpoints ▸ hc.sorted
  refine (RevCursor.passKey_spec hon hsorted (h.tableId_eq ▸ hid) hbehind).mono fun out cur' hp => ⟨hp.1, ?_⟩
  obtain ⟨-, ⟨htable, hnode, hwall⟩, o', hbehind', hcase⟩ := hp
  refine ⟨⟨n, bs, rdelBlocks, minSeq, o', hon, hpoints, hbehind', ?_⟩, htable.trans h.tableId_eq, hnode.trans h.nodeId_eq,
    hwall.trans h.sealWall_eq⟩
  rcases hcase with ⟨hall, rfl⟩ | ⟨-, htop⟩
  · refine hhead.stays (fun x hx => ?_) fun a ha => ?_
    · rw [toVisit_some hk] at hx
      exact toVisit_mono hk (of_decide_eq_true hx).le
    · subst ha
      have hrel := behind_head hon h.nodeId_eq h.sealWall_eq hbehind
      rw [toVisit_some hk, decide_eq_true_eq]
      cases hcur : cur.head with
      | none =>
        rw [hcur] at hrel
        cases hrel
      | some x =>
        rw [hcur] at hrel
        cases hrel with
        | some hx =>
          have hle := hmin x hcur
          rw [hx.1] at hle
          exact lt_of_le_of_ne hle (of_decide_eq_true hall)
  · have hregion : (fun x => toVisit start (some k) x = true) = fun x => boundOk (some (k, false)) x = true := by
      funext x
      rw [toVisit_some hk]
      unfold boundOk
      simp
    rw [hregion, ← hpoints]
    exact htop

theorem MemAt.pass (hs : db.table.iter.Pairwise Entry.Before) {w : MemWalk} (h : MemAt db maxSeq (toVisit start last) w)
    (hk : toVisit start last k = true) (hmin : ∀ v, w.head = some v → v.key ≤ k) {fuel : Nat} (hf : w.below.length < fuel) :
    MemAt db maxSeq (toVisit start (some k)) (passMem maxSeq k fuel w) := by
  have hdown : ∀ a b, toVisit start (some k) a = true → b ≤ a → toVisit start (some k) b = true :=
    fun a b ha hle => toVisit_mono ha hle
  obtain ⟨fuel, rfl⟩ : ∃ f, fuel = f + 1 := ⟨fuel - 1, by omega⟩
  rw [passMem]
  cases hon : w.head.any (·.key = k) with
  | false =>
    rw [if_neg Bool.false_ne_true]
    refine ⟨h.head.stays (fun x hx => ?_) fun v hv => ?_, h.below⟩
    · rw [toVisit_some hk] at hx
      exact toVisit_mono hk (of_decide_eq_true hx).le
    · rw [hv, Option.any_some] at hon
      rw [toVisit_some hk, decide_eq_true_eq]
      exact lt_of_le_of_ne (hmin v hv) (of_decide_eq_false hon)
  | true =>
    rw [if_pos rfl]
    cases hw : w.head with
    | none =>
      rw [hw] at hon
      cases hon
    | some v =>
      rw [hw] at hon
      have hkey : v.key = k := of_decide_eq_true hon
      have hbelow := h.below v hw
      have hslots : w.below = (db.table.iter.filter fun e => toVisit start (some k) e.key).reverse := by
        rw [hbelow, hkey]
        congr 1
        exact List.filter_congr fun x _ => (toVisit_some hk).symm
      by_cases hempty : w.below.isEmpty = true
      · rw [if_pos hempty]
        refine ⟨fun x hx hP => ?_, fun v hv => by cases hv⟩
        rw [List.isEmpty_iff.mp hempty] at hslots
        have hnil := List.filter_eq_nil_iff.mp (List.reverse_eq_nil_iff.mp hslots.symm) x (List.mem_of_mem_filter hx)
        exact hnil hP
      · rw [if_neg hempty]
        have hnext : MemAt db maxSeq _ _ := memAt_advance hs hdown hslots (le_refl w.below.length)
        -- The next head lies below the key, so the loop ends here.
        have hstop : ∀ f, passMem maxSeq k f (advanceMem maxSeq w.below.length w.below) =
            advanceMem maxSeq w.below.length w.below := by
          intro f
          cases f with
          | zero => rfl
          | succ f =>
            rw [passMem, if_neg]
            cases hh : (advanceMem maxSeq w.below.length w.below).head with
            | none => simp
            | some x =>
              have hx := hnext.head
              rw [hh] at hx
              have hlt : toVisit start (some k) x.key = true := hx.1
              rw [toVisit_some hk, decide_eq_true_eq] at hlt
              simpa using ne_of_lt hlt
        rw [hstop]
        exact hnext

theorem Standing.parked (h : Standing sh blocks c db start lower maxSeq now last s) :
    List.Forall₂ (fun t cur => Parked sh blocks (fun a b : Bytes => b ≤ a) SstEntry.key (tableHit t)
      ((c.points t.id).filter (passes maxSeq (some t.firstKey))) (toVisit start last · = true) (RevCursor.head cur))
      ((db.scanOrder sh).filter (reaches c start lower)) s.cursors :=
  h.cursors.imp fun _ _ hcur => hcur.parked

theorem Standing.inside (h : Standing sh blocks c db start lower maxSeq now last s) :
    ∀ x ∈ heads db s, toVisit start last x.key = true := heads_inside (memHead_parked h.mem) h.parked

/-- The next key of a scan: its heads stand for what the sources hold. -/
theorem Standing.heads_at (hs : db.table.iter.Pairwise Entry.Before) (hc : ∀ t ∈ db.scanOrder sh, c.On sh blocks t)
    (h : Standing sh blocks c db start lower maxSeq now last s) (hk : toVisit start last k = true)
    (hlower : lower.any (k ≤ ·) = false) (hmin : ∀ x ∈ heads db s, x.key ≤ k) :
    List.Forall₂ (Head.For sh blocks) ((heads db s).filter (·.key = k))
      ((db.sourcesAt sh c k maxSeq).filterMap Source.hit) := by
  have hanti : Std.Antisymm (fun a b : Bytes => b ≤ a) := ⟨fun _ _ hab hba => le_antisymm hba hab⟩
  exact Scans.heads_at hs hc (memHead_parked h.mem) h.parked
    (fun _ _ ht => hit_of_not_reaches ht (Bool.and_eq_true_iff.mp hk).1 hlower) hk hmin

/-- Stepping past the next key keeps every source in its place. -/
theorem Standing.pass (hs : db.table.iter.Pairwise Entry.Before) (hc : ∀ t ∈ db.scanOrder sh, c.On sh d.blocks t)
    (hids : ∀ t ∈ db.scanOrder sh, db.manifest.findTable t.id = some t)
    (h : Standing sh d.blocks c db start lower maxSeq now last s) (hk : toVisit start last k = true)
    (hmin : ∀ x ∈ heads db s, x.key ≤ k) : Reading .device (advancePastKeyRev sh db k)
      (fun o s' => o = .ok () ∧ Standing sh d.blocks c db start lower maxSeq now (some k) s') s d := by
  have hmem : MemAt db maxSeq (toVisit start (some k)) (passMem s.maxSeq k (s.mem.below.length + 1) s.mem) := by
    rw [h.maxSeq_eq]
    refine h.mem.pass hs hk (fun v hv => ?_) (Nat.lt_succ_self _)
    refine hmin ⟨v.key, .memtable db.cfg.nodeId v.seq, v.tombstone, v.val.length, v.expireAt, .mem v.val⟩
      (List.mem_append_left _ ?_)
    unfold memHead
    rw [hv]
    exact List.mem_singleton_self _
  have hcursors : List.Forall₂ (fun t cur => ((c.On sh d.blocks t ∧ db.manifest.findTable t.id = some t) ∧
      Follows sh d.blocks c maxSeq start last t cur) ∧ ∀ x ∈ cur.head, x.key ≤ k)
      ((db.scanOrder sh).filter (reaches c start lower)) s.cursors := by
    have htables : ∀ t ∈ (db.scanOrder sh).filter (reaches c start lower),
        c.On sh d.blocks t ∧ db.manifest.findTable t.id = some t :=
      fun t ht => ⟨hc t (List.mem_of_mem_filter ht), hids t (List.mem_of_mem_filter ht)⟩
    have hall := (List.forall₂_and_left _ _).mpr ⟨htables, h.cursors⟩
    have hheads : ∀ cur ∈ s.cursors, ∀ x ∈ cur.head, x.key ≤ k :=
      fun cur hcur x hx => hmin x (List.mem_append_right _ (List.mem_filterMap.mpr ⟨cur, hcur, hx⟩))
    have hflip := (List.forall₂_and_left _ _).mpr ⟨hheads, hall.flip⟩
    exact hflip.flip.imp fun t cur hcur => ⟨hcur.2, hcur.1⟩
  unfold advancePastKeyRev
  refine Reading.get_bind ?_
  refine Reading.bind (Reading.set_ok (Q := fun o s' => o = .ok () ∧ s' = _) _ ⟨rfl, rfl⟩) fun s' d' hd' hs' => ?_
  rw [hs']
  refine Reading.zoom ?_
  dsimp only
  have hstep : ∀ (t : TableRef) (cur : RevCursor), (((c.On sh d.blocks t ∧ db.manifest.findTable t.id = some t) ∧
      Follows sh d.blocks c maxSeq start last t cur) ∧ ∀ x ∈ cur.head, x.key ≤ k) → ∀ d'', ReadsOnly d' d'' →
      Reading .device (RevCursor.passKey sh db s.maxSeq k)
        (fun o cur' => o = .ok () ∧ Follows sh d.blocks c maxSeq start (some k) t cur') cur d'' := by
    intro t cur hcur d'' hd''
    obtain ⟨⟨⟨hon, hid⟩, hfollows⟩, hle⟩ := hcur
    have hsame : d''.blocks = d.blocks := hd''.1.trans hd'.1
    rw [h.maxSeq_eq, ← hsame]
    rw [← hsame] at hon hfollows
    exact Follows.pass hon hid hfollows hk hle
  exact (Reading.each hcursors hstep).mono fun o cs hp => ⟨hp.1, h.lower_eq, h.maxSeq_eq, h.now_eq, hmem, hp.2⟩

private theorem countP_lt {α : Type} {l : List α} {p q : α → Bool} (hqp : ∀ x ∈ l, q x = true → p x = true) {a : α}
    (ha : a ∈ l) (hp : p a = true) (hq : q a = false) : l.countP q < l.countP p := by
  obtain ⟨l₁, l₂, rfl⟩ := List.append_of_mem ha
  have h₁ := List.countP_mono_left fun x hx => hqp x (List.mem_append_left _ hx)
  have h₂ := List.countP_mono_left fun x hx => hqp x (List.mem_append_right _ (List.mem_cons_of_mem _ hx))
  rw [List.countP_append, List.countP_append, List.countP_cons_of_pos hp, List.countP_cons_of_neg (by simp [hq])]
  omega

/-- A step past a key leaves fewer versions before the scan. -/
theorem Standing.remaining_lt (h : Standing sh blocks c db start lower maxSeq now last s) (hk : toVisit start last k = true)
    (hon : ∃ x ∈ heads db s, x.key = k) :
    remaining sh c db start lower maxSeq (some k) < remaining sh c db start lower maxSeq last := by
  have hmono : ∀ x, toVisit start (some k) x = true → toVisit start last x = true := by
    intro x hx
    rw [toVisit_some hk] at hx
    exact toVisit_mono hk (of_decide_eq_true hx).le
  have hend : toVisit start (some k) k = false := by
    rw [toVisit_some hk]
    simp
  have hmemLe := List.countP_mono_left fun (e : Entry) (_ : e ∈ db.table.iter.filter (memSees maxSeq)) => hmono e.key
  have htablesLe : ∀ t ∈ (db.scanOrder sh).filter (reaches c start lower),
      (((c.points t.id).filter (passes maxSeq (some t.firstKey))).countP fun e => toVisit start (some k) e.key) ≤
        ((c.points t.id).filter (passes maxSeq (some t.firstKey))).countP fun e => toVisit start last e.key :=
    fun t _ => List.countP_mono_left fun e _ => hmono e.key
  obtain ⟨x, hx, hkey⟩ := hon
  unfold remaining
  unfold heads at hx
  rcases List.mem_append.mp hx with hx | hx
  · have hlt : ((db.table.iter.filter (memSees maxSeq)).countP fun e => toVisit start (some k) e.key) <
        (db.table.iter.filter (memSees maxSeq)).countP fun e => toVisit start last e.key := by
      unfold memHead at hx
      cases hh : s.mem.head with
      | none =>
        rw [hh] at hx
        cases hx
      | some e =>
        rw [hh] at hx
        obtain rfl := List.mem_singleton.mp hx
        have hhead := h.mem.head
        rw [hh] at hhead
        have hek : e.key = k := hkey
        refine countP_lt (fun y _ => hmono y.key) hhead.mem ?_ ?_
        · rw [hek]
          exact hk
        · rw [hek]
          exact hend
    have := List.sum_le_sum htablesLe
    omega
  · obtain ⟨t, ht, hlt⟩ : ∃ t ∈ (db.scanOrder sh).filter (reaches c start lower),
        (((c.points t.id).filter (passes maxSeq (some t.firstKey))).countP fun e => toVisit start (some k) e.key) <
          ((c.points t.id).filter (passes maxSeq (some t.firstKey))).countP fun e => toVisit start last e.key := by
      have hcursors := h.cursors
      generalize (db.scanOrder sh).filter (reaches c start lower) = ts at hcursors
      generalize s.cursors = cs at hcursors hx
      induction hcursors with
      | nil => cases hx
      | @cons t cur ts cs hfollows _ ih =>
        cases hh : cur.head with
        | none =>
          rw [List.filterMap_cons_none hh] at hx
          obtain ⟨t', ht', hlt⟩ := ih hx
          exact ⟨t', List.mem_cons_of_mem _ ht', hlt⟩
        | some y =>
          rw [List.filterMap_cons_some hh] at hx
          rcases List.mem_cons.mp hx with rfl | hx
          · refine ⟨t, List.mem_cons_self, ?_⟩
            obtain ⟨o, hhead, hrel⟩ := hfollows.parked
            rw [hh] at hrel
            cases hrel with
            | @some x a hxa =>
              have hak : a.key = k := hxa.1.symm.trans hkey
              refine countP_lt (fun y _ => hmono y.key) hhead.mem ?_ ?_
              · rw [hak]
                exact hk
              · rw [hak]
                exact hend
          · obtain ⟨t', ht', hlt⟩ := ih hx
            exact ⟨t', List.mem_cons_of_mem _ ht', hlt⟩
    have := List.sum_lt_sum _ _ htablesLe ⟨t, ht, hlt⟩
    omega

theorem remaining_le (hc : ∀ t ∈ db.scanOrder sh, c.On sh blocks t) (start : Bytes) (lower last : Option Bytes)
    (maxSeq : Nat) :
    remaining sh c db start lower maxSeq last ≤
      db.table.slots.length + ((db.scanOrder sh).map fun t => t.blockCount * sh.BLOCK).sum := by
  unfold remaining
  refine Nat.add_le_add ?_ ?_
  · have hcount := List.countP_le_length (p := fun e : Entry => toVisit start last e.key)
      (l := db.table.iter.filter (memSees maxSeq))
    have hlen := List.length_filter_le (memSees maxSeq) db.table.iter
    rw [MemTable.length_iter] at hlen
    exact hcount.trans hlen
  · generalize db.scanOrder sh = ts at hc
    induction ts with
    | nil => exact le_rfl
    | cons t ts ih =>
      have hrest := ih fun t' ht' => hc t' (List.mem_cons_of_mem _ ht')
      have hone : ((c.points t.id).filter (passes maxSeq (some t.firstKey))).countP (fun e => toVisit start last e.key) ≤
          t.blockCount * sh.BLOCK := by
        obtain ⟨n, bs, rdelBlocks, minSeq, hon, hpoints, ht⟩ := pointsTo_of_on (hc t List.mem_cons_self)
        have hcount := List.countP_le_length (p := fun e : SstEntry => toVisit start last e.key)
          (l := (c.points t.id).filter (passes maxSeq (some t.firstKey)))
        have hlen := List.length_filter_le (passes maxSeq (some t.firstKey)) (c.points t.id)
        have htotal := Cursor.length_flatten_le hon.block
        have hblocks : bs.length * sh.BLOCK ≤ t.blockCount * sh.BLOCK := by
          refine Nat.mul_le_mul_right _ ?_
          rw [ht.blockCount_eq]
          omega
        rw [hpoints] at htotal
        omega
      rw [List.map_cons, List.sum_cons]
      by_cases hr : reaches c start lower t = true
      · rw [List.filter_cons_of_pos hr, List.map_cons, List.sum_cons]
        exact Nat.add_le_add hone hrest
      · rw [List.filter_cons_of_neg hr]
        omega

/-- A reverse scan has its sources in their places. -/
theorem places (hs : db.table.iter.Pairwise Entry.Before) (hc : ∀ t ∈ db.scanOrder sh, c.On sh blocks t)
    (hids : ∀ t ∈ db.scanOrder sh, db.manifest.findTable t.id = some t) (start : Bytes) (lower : Option Bytes)
    (maxSeq now : Nat) :
    (merge sh db).Places sh blocks c db maxSeq now (fun k => boundOk (RevCursor.ceiling start) k = true)
      (fun k => lower.any (k ≤ ·)) (fun last n s =>
        Standing sh blocks c db start lower maxSeq now last s ∧ n = remaining sh c db start lower maxSeq last) where
  irrefl k := decide_eq_false (lt_irrefl k)
  trans hab hbc := decide_eq_true ((of_decide_eq_true hbc).trans (of_decide_eq_true hab))
  total hne := (lt_or_gt_of_ne hne).symm.imp (fun h => decide_eq_true h) fun h => decide_eq_true h
  tables := hc
  maxSeq_eq h := h.1.maxSeq_eq
  now_eq h := h.1.now_eq
  ended_eq h := by
    funext k
    exact congrArg (fun o : Option Bytes => o.any (k ≤ ·)) h.1.lower_eq
  ended_mono := by
    intro a b ha hab
    cases lower with
    | none => cases ha
    | some e => exact decide_eq_true ((of_decide_eq_true hab).le.trans (of_decide_eq_true ha))
  inside h x hx := Bool.and_eq_true_iff.mp (h.1.inside x hx)
  heads h k hw hend hr hmin := by
    have hk : toVisit start _ k = true := Bool.and_eq_true_iff.mpr ⟨hw, hr⟩
    exact h.1.heads_at hs hc hk hend fun x hx => not_lt.mp (of_decide_eq_false (hmin x hx))
  rounds h := by
    rw [h.2]
    exact remaining_le hc start lower _ maxSeq
  pass := by
    intro last n s h k hon hmin d hd
    subst hd
    obtain ⟨x, hx, rfl⟩ := hon
    have hk := h.1.inside x hx
    refine (h.1.pass hs hc hids hk fun y hy => not_lt.mp (of_decide_eq_false (hmin y hy))).mono fun o s' hp => ⟨hp.1, ?_⟩
    refine ⟨remaining sh c db start lower maxSeq (some x.key), ?_, hp.2, rfl⟩
    rw [h.2]
    exact h.1.remaining_lt hk ⟨x, hx, rfl⟩

/-! ### Seeking -/

theorem addCursorRev_spec {t : TableRef} (hc : c.On sh d.blocks t) (hid : db.manifest.findTable t.id = some t)
    (s : RevScan) :
    Reading .device (addCursorRev sh db t start) (fun o s' => ∀ u, o = .ok u →
      (c.points t.id).any (fun e => boundOk (RevCursor.ceiling start) e.key) = false ∧ s' = s ∨
        (c.points t.id).any (fun e => boundOk (RevCursor.ceiling start) e.key) = true ∧
          ∃ cur, s' = { s with cursors := s.cursors ++ [cur] } ∧ Follows sh d.blocks c s.maxSeq start none t cur) s d := by
  obtain ⟨k, bs, rdelBlocks, minSeq, hon, hpoints, ht⟩ := pointsTo_of_on hc
  have hsorted : bs.flatten.Pairwise SstEntry.Before := hpoints ▸ hc.sorted
  unfold addCursorRev
  rcases RevCursor.init_spec hon hsorted ht start with ⟨hout, hinit⟩ |
    ⟨cur, i, b, hinit, hlive, hid', hnode, hwall, hat, hin, hout⟩
  · refine Reading.run_bind hinit fun d' _ => ?_
    refine Reading.pure_ok _ fun u _ => Or.inl ⟨?_, rfl⟩
    rw [hpoints] at hout
    rw [List.any_eq_false]
    intro e he
    simp [hout e he]
  · refine Reading.run_bind hinit fun d' hd' => ?_
    refine Reading.get_bind ?_
    split
    · exact ⟨.refl _, Or.inl fun u hu => by cases hu⟩
    · refine Reading.bind (Reading.set_ok (Q := fun o s' => o = .ok () ∧ s' = _) _ ⟨rfl, rfl⟩) fun s' d'' hd'' hs' => ?_
      rw [hs']
      refine Reading.zoom ?_
      have hlast : (s.cursors ++ [cur]).getLastD cur = cur := by simp
      dsimp only
      rw [hlast]
      have hblocks : d''.blocks = d.blocks := hd''.1.trans hd'.1
      have hpark : Reading .device (RevCursor.parkCursor sh db (RevCursor.ceiling start) s.maxSeq) _ cur d'' :=
        RevCursor.parkCursor_spec (hblocks ▸ hon) hsorted (hid' ▸ hid) hat hlive fun x hx _ => hout x hx
      refine hpark.mono fun o cur' hp u _ => Or.inr ⟨?_, cur', ?_, ?_⟩
      · obtain ⟨x, hx, hok⟩ := hin
        rw [← hpoints, List.any_eq_true]
        exact ⟨x, List.mem_flatten.mpr ⟨b, List.mem_of_getElem? hat.block, hx⟩, hok⟩
      · simp
      · obtain ⟨-, ⟨htable, hnode', hwall'⟩, o', hbehind, htop⟩ := hp
        refine ⟨⟨k, bs, rdelBlocks, minSeq, o', hon, hpoints, hbehind, ?_⟩, htable.trans hid', hnode'.trans hnode,
          hwall'.trans hwall⟩
        have hregion : (fun x => toVisit start none x = true) = fun x => boundOk (RevCursor.ceiling start) x = true := by
          funext x
          unfold toVisit Merge.region
          rw [Option.all_none, Bool.and_true]
        rw [hregion, ← hpoints]
        exact htop

theorem addCursors_spec {ts done : List TableRef} (hc : ∀ t ∈ ts, c.On sh d.blocks t)
    (hids : ∀ t ∈ ts, db.manifest.findTable t.id = some t)
    (hdone : List.Forall₂ (Follows sh d.blocks c s.maxSeq start none) done s.cursors) :
    Reading .device (addCursors sh db start ts) (fun o s' => ∀ u, o = .ok u → ∃ cs, s' = { s with cursors := cs } ∧
      List.Forall₂ (Follows sh d.blocks c s.maxSeq start none) (done ++ ts.filter (reaches c start s.lower)) cs) s d := by
  induction ts generalizing s done d with
  | nil =>
    refine Reading.pure_ok _ fun u _ => ⟨s.cursors, rfl, ?_⟩
    rw [List.filter_nil, List.append_nil]
    exact hdone
  | cons t ts ih =>
    unfold addCursors
    refine Reading.get_bind ?_
    have hrest : ∀ t' ∈ ts, c.On sh d.blocks t' := fun t' ht' => hc t' (List.mem_cons_of_mem _ ht')
    have hids' : ∀ t' ∈ ts, db.manifest.findTable t'.id = some t' := fun t' ht' => hids t' (List.mem_cons_of_mem _ ht')
    by_cases hover : overlaps start s.lower t = true
    · rw [if_pos hover]
      refine Reading.bind_of_ok (addCursorRev_spec (hc t List.mem_cons_self) (hids t List.mem_cons_self) s)
        fun u s' d' hd' hstep => ?_
      have hblocks : d'.blocks = d.blocks := hd'.1
      rcases hstep with ⟨hnone, rfl⟩ | ⟨hsome, cur, rfl, hfollows⟩
      · have hno : reaches c start s'.lower t = false := by
          unfold reaches
          rw [hnone, Bool.and_false]
        have hgo := ih (hblocks ▸ hrest) hids' (hblocks ▸ hdone)
        rw [hblocks] at hgo
        rw [List.filter_cons_of_neg (by simp [hno])]
        exact hgo
      · have hyes : reaches c start s.lower t = true := by
          unfold reaches
          rw [hover, hsome]
          rfl
        have happ := List.rel_append hdone (.cons hfollows .nil)
        have hgo : Reading .device (addCursors sh db start ts) _ { s with cursors := s.cursors ++ [cur] } d' :=
          ih (hblocks ▸ hrest) hids' (hblocks ▸ happ)
        rw [hblocks] at hgo
        rw [List.filter_cons_of_pos hyes]
        refine hgo.mono fun o s' hp u hu => ?_
        obtain ⟨cs, rfl, hcs⟩ := hp u hu
        refine ⟨cs, rfl, ?_⟩
        rw [List.append_assoc] at hcs
        exact hcs
    · rw [if_neg hover]
      have hno : reaches c start s.lower t = false := by
        unfold reaches
        rw [Bool.not_eq_true] at hover
        rw [hover, Bool.false_and]
      rw [List.filter_cons_of_neg (by simp [hno])]
      exact ih hrest hids' hdone

/-- A seek that succeeds puts every source in its place. -/
theorem seek_spec (hs : db.table.iter.Pairwise Entry.Before) (hc : ∀ t ∈ db.scanOrder sh, c.On sh d.blocks t)
    (hids : ∀ t ∈ db.scanOrder sh, db.manifest.findTable t.id = some t) (s : RevScan) :
    Reading .device (seekPrevWithTime sh db start lower maxSeq now) (fun o s' => ∀ u, o = .ok u →
      Standing sh d.blocks c db start lower maxSeq now none s') s d := by
  unfold seekPrevWithTime
  split
  · exact ⟨.refl _, Or.inl fun u hu => by cases hu⟩
  split
  · exact ⟨.refl _, Or.inl fun u hu => by cases hu⟩
  split
  · exact ⟨.refl _, Or.inl fun u hu => by cases hu⟩
  dsimp only
  refine Reading.bind (Reading.set_ok (Q := fun o s' => o = .ok () ∧ s' = _) _ ⟨rfl, rfl⟩) fun s₂ d₂ hd₂ hs₂ => ?_
  have hblocks : d₂.blocks = d.blocks := hd₂.1
  rw [hs₂]
  have hnil : List.Forall₂ (Follows sh d₂.blocks c maxSeq start none) [] ([] : List RevCursor) := .nil
  have hgo : Reading .device (addCursors sh db start (db.scanOrder sh)) _
      ⟨lower, maxSeq, now, advanceMem maxSeq (memStart db start).length (memStart db start), []⟩ d₂ :=
    addCursors_spec (hblocks ▸ hc) hids hnil
  rw [hblocks] at hgo
  refine hgo.mono fun o s' hp u hu => ?_
  obtain ⟨cs, rfl, hcs⟩ := hp u hu
  refine ⟨rfl, rfl, rfl, ?_, hcs⟩
  have hregion : toVisit start none = boundOk (RevCursor.ceiling start) := by
    funext x
    unfold toVisit Merge.region
    rw [Option.all_none, Bool.and_true]
  rw [hregion]
  exact memAt_advance hs (fun a b ha hle => boundOk_mono ha hle) (memStart_eq hs start) le_rfl

end RevScan

end Scans

end Horton
