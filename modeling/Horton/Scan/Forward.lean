import Horton.Scan.Cursor
import Horton.Scan.Merge
import Mathlib.Algebra.Order.BigOperators.Group.List
import Mathlib.Data.List.TakeWhile

/-!
# Forward scans

`Scan` of `scan.rs`: `seek` parks the memtable head and one cursor for each table that overlaps the range, `next` merges
them upwards.  The memtable head is the list of its slots from the head on.

`Standing` is the place of every source behind a key: what is left of a source starts at its first visible entry in the
region still to visit, so that a scan has its sources in their places (`places`).
-/

namespace Horton

open BlockDev Sstable

namespace Scans

structure Scan where
  stop : Option Bytes
  maxSeq : Nat
  now : Nat
  mem : List Entry
  cursors : List ScanCursor
  deriving DecidableEq, Repr

namespace Scan

variable (sh : Shape)

def advanceMem (maxSeq : Nat) (slots : List Entry) : List Entry := slots.dropWhile fun e => !memSees maxSeq e

/-- Moves the memtable head on while it sits on `key`. -/
def passMem (maxSeq : Nat) (key : Bytes) : Nat → List Entry → List Entry
  | fuel + 1, e :: slots => if e.key = key then passMem maxSeq key fuel (advanceMem maxSeq slots) else e :: slots
  | _, slots => slots

def memHead (db : Db) (slots : List Entry) : Option Head :=
  slots.head?.map fun e =>
    ⟨e.key, .memtable db.cfg.nodeId e.seq, e.tombstone, e.val.length, e.expireAt, .mem e.val⟩

/-- The live heads: the memtable, then the cursors in level-major order. -/
def heads (db : Db) (s : Scan) : List Head := (memHead db s.mem).toList ++ s.cursors.filterMap ScanCursor.head

def advancePastKey (key : Bytes) : Prog Scan Error Unit := do
  let s ← Prog.get
  Prog.set { s with mem := passMem s.maxSeq key s.mem.length s.mem }
  Prog.zoom cursors (fun cs s => { s with cursors := cs }) (Prog.each (ScanCursor.passKey sh s.maxSeq key))

/-- The merge upwards. -/
def merge (db : Db) : Merge Scan where
  heads := heads db
  before key key' := decide (key < key')
  ended s key := s.stop.any (· ≤ key)
  maxSeq := maxSeq
  now := now
  pass := advancePastKey sh
  rounds s := s.mem.length + (s.cursors.map fun cur => cur.dataBlocks * sh.BLOCK).sum

def next (db : Db) (keyBuf valBuf : Nat) : Prog Scan Error (Option (Bytes × Bytes)) :=
  (merge sh db).yield sh db keyBuf valBuf

/-- Adds a cursor over `tref`, parked on its first visible entry at or above `start`. -/
def addCursor (tref : TableRef) (start : Bytes) : Prog Scan Error Unit := do
  match ← (ScanCursor.init sh tref start).run .device with
  | none => return ()
  | some cur => do
    let s ← Prog.get
    if s.cursors.length ≥ sh.LEVELS * sh.TABLES then Prog.throw .corruptManifest
    else do
      Prog.set { s with cursors := s.cursors ++ [cur] }
      Prog.zoom (fun s => s.cursors.getLastD cur) (fun cur s => { s with cursors := s.cursors.dropLast ++ [cur] })
        (ScanCursor.parkCursor sh s.maxSeq (some start))

/-- Tables outside of the range cost nothing; the entries below the live bound of a table are dead. -/
def overlaps (start : Bytes) (stop : Option Bytes) (tref : TableRef) : Bool :=
  !decide (tref.lastKey < start) && !stop.any (· ≤ tref.firstKey)

def addCursors (start : Bytes) : List TableRef → Prog Scan Error Unit
  | [] => pure ()
  | tref :: ts => do
    let s ← Prog.get
    if overlaps start s.stop tref then addCursor sh tref (max start tref.firstKey) else pure ()
    addCursors start ts

def checkStop : Option Bytes → Except Error Unit
  | some [] => .error .emptyKey
  | some key => if key.length > sh.KEY_MAX then .error (.keyTooLarge key.length sh.KEY_MAX) else .ok ()
  | none => .ok ()

def seekWithTime (db : Db) (start : Bytes) (stop : Option Bytes) (maxSeq now : Nat) : Prog Scan Error Unit := do
  if !db.opened then Prog.throw .notOpen
  else if start.length > sh.KEY_MAX then Prog.throw (.keyTooLarge start.length sh.KEY_MAX)
  else do
    Prog.ofExcept (checkStop sh stop)
    Prog.set ⟨stop, maxSeq, now, advanceMem maxSeq (db.table.iter.drop (db.table.lowerBound start)), []⟩
    addCursors sh start (db.scanOrder sh)

/-! ### The memtable -/

variable {sh} {blocks : Nat → Bytes} {c : Contents} {db : Db} {start : Bytes} {stop : Option Bytes} {maxSeq now : Nat}
  {last : Option Bytes} {s : Scan} {key : Bytes}

/-- The keys a scan from `start` has still to visit behind `last`. -/
def toVisit (start : Bytes) (last : Option Bytes) (key : Bytes) : Bool :=
  decide (start ≤ key) && Merge.region (fun k k' => decide (k < k')) last key

theorem toVisit_mono {key' : Bytes} (h : toVisit start last key = true) (hle : key ≤ key') :
    toVisit start last key' = true := by
  unfold toVisit Merge.region at *
  rw [Bool.and_eq_true, decide_eq_true_eq] at h ⊢
  refine ⟨h.1.trans hle, ?_⟩
  cases last with
  | none => rfl
  | some b => exact decide_eq_true (lt_of_lt_of_le (of_decide_eq_true h.2) hle)

theorem toVisit_some {k : Bytes} (h : toVisit start last k = true) : toVisit start (some k) key = decide (k < key) := by
  unfold toVisit Merge.region at *
  rw [Bool.and_eq_true, decide_eq_true_eq] at h
  rw [Option.all_some, Bool.and_eq_right_iff_imp, decide_eq_true_eq, decide_eq_true_eq]
  exact fun hlt => h.1.trans hlt.le

section Lists

variable {α : Type} {l : List α} {p q r : α → Bool}

private theorem dropWhile_congr (h : ∀ x ∈ l, p x = q x) : l.dropWhile p = l.dropWhile q := by
  induction l with
  | nil => rfl
  | cons x l ih =>
    have hx := h x List.mem_cons_self
    have hl := ih fun y hy => h y (List.mem_cons_of_mem _ hy)
    cases hp : p x with
    | true => rw [List.dropWhile_cons_of_pos hp, List.dropWhile_cons_of_pos (hx ▸ hp), hl]
    | false => rw [List.dropWhile_cons_of_neg (by simp [hp]), List.dropWhile_cons_of_neg (by simp [← hx, hp])]

/-- Dropping on. -/
theorem dropWhile_again (hpr : ∀ x ∈ l, p x = true → r x = true) (hqr : ∀ x ∈ l.dropWhile p, q x = r x) :
    (l.dropWhile p).dropWhile q = l.dropWhile r := by
  induction l with
  | nil => rfl
  | cons x l ih =>
    cases hp : p x with
    | true =>
      rw [List.dropWhile_cons_of_pos hp] at hqr ⊢
      rw [List.dropWhile_cons_of_pos (hpr x List.mem_cons_self hp)]
      exact ih (fun y hy => hpr y (List.mem_cons_of_mem _ hy)) hqr
    | false =>
      rw [List.dropWhile_cons_of_neg (by simp [hp])] at hqr ⊢
      exact dropWhile_congr hqr

end Lists

/-- What is left of a sorted list behind a key: everything above the key that is to be seen. -/
theorem left_behind {α : Type} {keyOf : α → Bytes} {l : List α} {sees : α → Bool} {k : Bytes}
    (hs : l.Pairwise fun a b => keyOf a ≤ keyOf b) (hk : toVisit start last k = true)
    (hhead : ∀ e ∈ (l.dropWhile fun e => !(sees e && toVisit start last (keyOf e))).head?, k ≤ keyOf e) {q : α → Bool}
    (hq : ∀ e ∈ l.dropWhile (fun e => !(sees e && toVisit start last (keyOf e))), q e = (decide (keyOf e = k) || !sees e)) :
    (l.dropWhile fun e => !(sees e && toVisit start last (keyOf e))).dropWhile q =
      l.dropWhile fun e => !(sees e && toVisit start (some k) (keyOf e)) := by
  apply dropWhile_again
  · intro e _ he
    cases hsee : sees e with
    | false => simp
    | true =>
      rw [hsee, Bool.true_and, Bool.not_eq_true'] at he
      rw [Bool.true_and, toVisit_some hk, Bool.not_eq_true', decide_eq_false_iff_not]
      intro hlt
      rw [toVisit_mono hk hlt.le] at he
      cases he
  · intro e he
    have hle : k ≤ keyOf e := by
      have hsorted := hs.sublist (List.dropWhile_sublist fun e => !(sees e && toVisit start last (keyOf e)))
      cases hl : l.dropWhile fun e => !(sees e && toVisit start last (keyOf e)) with
      | nil =>
        rw [hl] at he
        cases he
      | cons x xs =>
        rw [hl] at he hsorted hhead
        rcases List.mem_cons.mp he with rfl | hmem
        · exact hhead e rfl
        · exact (hhead x rfl).trans ((List.pairwise_cons.mp hsorted).1 e hmem)
    rw [hq e he, toVisit_some hk, Bool.not_and, Bool.or_comm]
    congr 1
    rw [← decide_not]
    by_cases heq : keyOf e = k
    · simp [heq]
    · have hlt : k < keyOf e := lt_of_le_of_ne hle (Ne.symm heq)
      simp [heq, hlt]

/-- What is left of the memtable. -/
def memLeft (db : Db) (maxSeq : Nat) (start : Bytes) (last : Option Bytes) : List Entry :=
  db.table.iter.dropWhile fun e => !(memSees maxSeq e && toVisit start last e.key)

theorem seekMem_eq (hs : db.table.iter.Pairwise Entry.Before) (maxSeq : Nat) (start : Bytes) :
    advanceMem maxSeq (db.table.iter.drop (db.table.lowerBound start)) = memLeft db maxSeq start none := by
  unfold advanceMem memLeft
  conv_rhs => rw [← List.take_append_drop (db.table.lowerBound start) db.table.iter]
  rw [List.dropWhile_append_of_pos]
  · refine dropWhile_congr fun e he => ?_
    have hle := MemTable.key_le_of_drop hs he
    unfold toVisit Merge.region
    simp [hle]
  · intro e he
    have hlt := MemTable.key_lt_of_take he
    unfold toVisit
    simp [not_le.mpr hlt]

private theorem passMem_eq {fuel : Nat} {l : List Entry} (hv : ∀ e ∈ l.head?, memSees maxSeq e = true)
    (hf : l.length ≤ fuel) :
    passMem maxSeq key fuel l = l.dropWhile fun e => decide (e.key = key) || !memSees maxSeq e := by
  induction fuel generalizing l with
  | zero =>
    obtain rfl := List.length_eq_zero_iff.mp (by omega : l.length = 0)
    rfl
  | succ fuel ih =>
    cases l with
    | nil => rfl
    | cons e l =>
      rw [passMem]
      by_cases heq : e.key = key
      · rw [if_pos heq, List.dropWhile_cons_of_pos (by simp [heq])]
        have hshort := (List.dropWhile_sublist (l := l) fun e => !memSees maxSeq e).length_le
        rw [List.length_cons] at hf
        have hgo := @ih (advanceMem maxSeq l) ?_ (by unfold advanceMem; omega)
        · rw [hgo]
          exact dropWhile_again (fun x _ hx => by simp [hx]) fun _ _ => rfl
        · intro x hx
          have := List.head?_dropWhile_not (fun e => !memSees maxSeq e) l
          unfold advanceMem at hx
          rw [hx] at this
          simpa using this
      · rw [if_neg heq, List.dropWhile_cons_of_neg (by simp [heq, hv e rfl])]

/-! ### The places of a forward scan -/

/-- What is left of a table. -/
def tableLeft (c : Contents) (maxSeq : Nat) (start : Bytes) (last : Option Bytes) (t : TableRef) : List SstEntry :=
  (c.points t.id).dropWhile fun e => !(passes maxSeq (some t.firstKey) e && toVisit start last e.key)

/-- The cursor of a table behind `last`. -/
structure Follows (sh : Shape) (blocks : Nat → Bytes) (c : Contents) (maxSeq : Nat) (start : Bytes) (last : Option Bytes)
    (t : TableRef) (cur : ScanCursor) : Prop where
  ahead : ∃ k bs rdelBlocks minSeq, TableOn sh blocks t.firstBlock k bs rdelBlocks minSeq ∧ bs.flatten = c.points t.id ∧
    cur.Ahead sh t.firstBlock bs (tableLeft c maxSeq start last t)
  nodeId_eq : cur.nodeId = t.nodeId
  sealWall_eq : cur.sealWall = t.sealWall

/-- The tables that get a cursor. -/
def reaches (c : Contents) (start : Bytes) (stop : Option Bytes) (t : TableRef) : Bool :=
  overlaps start stop t && !(c.points t.id).isEmpty

/-- Every source of the scan is behind `last`. -/
structure Standing (sh : Shape) (blocks : Nat → Bytes) (c : Contents) (db : Db) (start : Bytes) (stop : Option Bytes)
    (maxSeq now : Nat) (last : Option Bytes) (s : Scan) : Prop where
  stop_eq : s.stop = stop
  maxSeq_eq : s.maxSeq = maxSeq
  now_eq : s.now = now
  mem_eq : s.mem = memLeft db maxSeq start last
  cursors : List.Forall₂ (Follows sh blocks c maxSeq start last) ((db.scanOrder sh).filter (reaches c start stop)) s.cursors

/-- The entries before a scan. -/
def remaining (sh : Shape) (c : Contents) (db : Db) (start : Bytes) (stop : Option Bytes) (maxSeq : Nat)
    (last : Option Bytes) : Nat :=
  (memLeft db maxSeq start last).length +
    (((db.scanOrder sh).filter (reaches c start stop)).map fun t => (tableLeft c maxSeq start last t).length).sum

section Sources

variable {t : TableRef} {cur : ScanCursor}

/-- The head of a cursor is the first entry left of its table. -/
theorem Follows.head (h : Follows sh blocks c maxSeq start last t cur) :
    Option.Rel (fun x e => x.key = e.key ∧ x.For sh blocks (tableHit t e)) cur.head
      (tableLeft c maxSeq start last t).head? := by
  obtain ⟨k, bs, rdelBlocks, minSeq, hon, -, hahead⟩ := h.ahead
  generalize tableLeft c maxSeq start last t = l at hahead
  unfold ScanCursor.head
  cases hahead with
  | dead hdead =>
    rw [hdead, if_neg Bool.false_ne_true]
    exact .none
  | @parked i b m e live hat he hhead =>
    rw [if_pos live, h.nodeId_eq, h.sealWall_eq, hat.blockId_eq, hat.stop_eq, hhead]
    exact .some ⟨rfl, Head.for_entry hon hat.block he⟩

theorem Follows.parked (hc : c.On sh blocks t) (h : Follows sh blocks c maxSeq start last t cur) :
    Parked sh blocks (· ≤ ·) SstEntry.key (tableHit t) ((c.points t.id).filter (passes maxSeq (some t.firstKey)))
      (toVisit start last · = true) cur.head := by
  refine ⟨(tableLeft c maxSeq start last t).head?, ?_, h.head⟩
  unfold tableLeft
  rw [← List.find?_eq_head?_dropWhile_not]
  exact IsHead.of_find (fun _ => le_rfl) (hc.sorted.imp SstEntry.Before.key_le)

theorem memHead_parked (hs : db.table.iter.Pairwise Entry.Before) (maxSeq : Nat) (start : Bytes) (last : Option Bytes) :
    Parked sh blocks (· ≤ ·) Entry.key (memHit db) (db.table.iter.filter (memSees maxSeq)) (toVisit start last · = true)
      (memHead db (memLeft db maxSeq start last)) := by
  refine ⟨(memLeft db maxSeq start last).head?, ?_, ?_⟩
  · unfold memLeft
    rw [← List.find?_eq_head?_dropWhile_not]
    exact IsHead.of_find (fun _ => le_rfl) (key_le_of_before hs)
  · unfold memHead
    cases (memLeft db maxSeq start last).head? with
    | none => exact .none
    | some e => exact .some ⟨rfl, Head.for_mem db e⟩

/-- A table without a cursor holds nothing in the range. -/
theorem hit_of_not_reaches (hr : reaches c start stop t = false) (hstart : start ≤ key)
    (hstop : stop.any (· ≤ key) = false) :
    (Db.tableSource c key maxSeq t).hit = none := by
  unfold Db.tableSource
  by_cases hcov : t.covers key = true
  · rw [if_pos hcov]
    unfold TableRef.covers at hcov
    obtain ⟨hfirst, hlast⟩ := of_decide_eq_true hcov
    have hoverlap : overlaps start stop t = true := by
      unfold overlaps
      have hlt : ¬t.lastKey < start := not_lt.mpr (hstart.trans hlast)
      cases stop with
      | none => simp [hlt]
      | some b =>
        have hb : ¬b ≤ key := of_decide_eq_false hstop
        have hbf : ¬b ≤ t.firstKey := fun h => hb (h.trans hfirst)
        simp [hlt, hbf]
    unfold reaches at hr
    rw [hoverlap, Bool.true_and, Bool.not_eq_false', List.isEmpty_iff] at hr
    rw [hr]
    rfl
  · rw [if_neg hcov]

end Sources

/-! ### Stepping past a key -/

private theorem length_dropWhile_le {α : Type} {l : List α} {p r : α → Bool} (hpr : ∀ x ∈ l, p x = true → r x = true) :
    (l.dropWhile r).length ≤ (l.dropWhile p).length := by
  have h := dropWhile_again (q := r) hpr fun _ _ => rfl
  rw [← h]
  exact (List.dropWhile_sublist _).length_le

private theorem length_dropWhile_lt {α : Type} {l : List α} {p r : α → Bool} {a : α} (hpr : ∀ x ∈ l, p x = true → r x = true)
    (ha : (l.dropWhile p).head? = some a) (hra : r a = true) : (l.dropWhile r).length < (l.dropWhile p).length := by
  have h := dropWhile_again (q := r) hpr fun _ _ => rfl
  rw [← h]
  cases hl : l.dropWhile p with
  | nil =>
    rw [hl] at ha
    cases ha
  | cons x xs =>
    rw [hl] at ha
    obtain rfl := Option.some.inj ha
    rw [List.dropWhile_cons_of_pos hra, List.length_cons]
    exact Nat.lt_succ_of_le (List.dropWhile_sublist _).length_le

private theorem head_sees {α : Type} {l : List α} {p : α → Bool} : ∀ e ∈ (l.dropWhile fun e => !p e).head?, p e = true := by
  intro e he
  have := List.head?_dropWhile_not (fun e => !p e) l
  rw [Option.mem_def.mp he] at this
  simpa using this

/-- What is left of a table lies at or above its live bound. -/
theorem firstKey_le {t : TableRef} (hs : (c.points t.id).Pairwise SstEntry.Before) :
    ∀ e ∈ tableLeft c maxSeq start last t, t.firstKey ≤ e.key := by
  have hsorted := (hs.imp SstEntry.Before.key_le).sublist
    (List.dropWhile_sublist fun e => !(passes maxSeq (some t.firstKey) e && toVisit start last e.key))
  have hhead := head_sees (l := c.points t.id) (p := fun e => passes maxSeq (some t.firstKey) e && toVisit start last e.key)
  unfold tableLeft
  intro e he
  cases hl : (c.points t.id).dropWhile fun e => !(passes maxSeq (some t.firstKey) e && toVisit start last e.key) with
  | nil =>
    rw [hl] at he
    cases he
  | cons x xs =>
    rw [hl] at he hsorted hhead
    have hx : t.firstKey ≤ x.key := by
      have hsees := (Bool.and_eq_true_iff.mp (hhead x rfl)).1
      unfold passes at hsees
      exact (of_decide_eq_true hsees).2 _ rfl
    rcases List.mem_cons.mp he with rfl | hmem
    · exact hx
    · exact hx.trans ((List.pairwise_cons.mp hsorted).1 e hmem)

/-- A cursor stepped past the next key. -/
theorem Follows.pass {t : TableRef} {cur : ScanCursor} {k : Bytes} {d : Device} (hc : c.On sh d.blocks t)
    (h : Follows sh d.blocks c maxSeq start last t cur) (hk : toVisit start last k = true)
    (hmin : ∀ x ∈ cur.head, k ≤ x.key) : Reading .device (ScanCursor.passKey sh maxSeq k)
      (fun o cur' => o = .ok () ∧ Follows sh d.blocks c maxSeq start (some k) t cur') cur d := by
  obtain ⟨n, bs, rdelBlocks, minSeq, hon, hpoints, hahead⟩ := h.ahead
  have hsees : ∀ e ∈ (tableLeft c maxSeq start last t).head?, passes maxSeq none e = true := by
    intro e he
    have := (Bool.and_eq_true_iff.mp (head_sees e he)).1
    unfold passes at this ⊢
    simp [(of_decide_eq_true this).1]
  have hge : ∀ e ∈ tableLeft c maxSeq start last t, t.firstKey ≤ e.key := firstKey_le hc.sorted
  refine (ScanCursor.passKey_spec hon hahead hsees).mono fun o cur' hp => ⟨hp.1, ?_⟩
  obtain ⟨-, ⟨hnode, hwall⟩, hahead'⟩ := hp
  refine ⟨⟨n, bs, rdelBlocks, minSeq, hon, hpoints, ?_⟩, hnode.trans h.nodeId_eq, hwall.trans h.sealWall_eq⟩
  have hbehind : (tableLeft c maxSeq start last t).dropWhile (ScanCursor.passed maxSeq k) =
      tableLeft c maxSeq start (some k) t := by
    refine left_behind (hc.sorted.imp SstEntry.Before.key_le) hk ?_ ?_
    · intro e he
      have hleft : (tableLeft c maxSeq start last t).head? = some e := he
      have hhead := h.head
      rw [hleft] at hhead
      cases hcur : cur.head with
      | none =>
        rw [hcur] at hhead
        cases hhead
      | some x =>
        rw [hcur] at hhead
        cases hhead with
        | some hx =>
          rw [← hx.1]
          exact hmin x hcur
    · intro e he
      have hfirst := hge e he
      unfold ScanCursor.passed passes
      simp [hfirst]
  rw [← hbehind]
  exact hahead'

variable {k : Bytes} {d : Device}

theorem Standing.parked (hc : ∀ t ∈ db.scanOrder sh, c.On sh blocks t)
    (h : Standing sh blocks c db start stop maxSeq now last s) :
    List.Forall₂ (fun t cur => Parked sh blocks (· ≤ ·) SstEntry.key (tableHit t)
      ((c.points t.id).filter (passes maxSeq (some t.firstKey))) (toVisit start last · = true) (ScanCursor.head cur))
      ((db.scanOrder sh).filter (reaches c start stop)) s.cursors := by
  have hall := (List.forall₂_and_left _ _).mpr
    ⟨fun t ht => hc t (List.mem_of_mem_filter (p := reaches c start stop) ht), h.cursors⟩
  exact hall.imp fun t cur hcur => hcur.2.parked hcur.1

theorem Standing.inside (hs : db.table.iter.Pairwise Entry.Before) (hc : ∀ t ∈ db.scanOrder sh, c.On sh blocks t)
    (h : Standing sh blocks c db start stop maxSeq now last s) : ∀ x ∈ heads db s, toVisit start last x.key = true := by
  unfold heads
  rw [h.mem_eq]
  exact heads_inside (memHead_parked hs maxSeq start last) (h.parked hc)

/-- The next key of a scan: its heads stand for what the sources hold. -/
theorem Standing.heads_at (hs : db.table.iter.Pairwise Entry.Before) (hc : ∀ t ∈ db.scanOrder sh, c.On sh blocks t)
    (h : Standing sh blocks c db start stop maxSeq now last s) {k : Bytes} (hk : toVisit start last k = true)
    (hstop : stop.any (· ≤ k) = false) (hmin : ∀ x ∈ heads db s, k ≤ x.key) :
    List.Forall₂ (Head.For sh blocks) ((heads db s).filter (·.key = k))
      ((db.sourcesAt sh c k maxSeq).filterMap Source.hit) := by
  have hstart : start ≤ k := of_decide_eq_true (Bool.and_eq_true_iff.mp hk).1
  unfold heads at hmin ⊢
  rw [h.mem_eq] at hmin ⊢
  exact Scans.heads_at hs hc (memHead_parked hs maxSeq start last) (h.parked hc)
    (fun t _ ht => hit_of_not_reaches ht hstart hstop) hk hmin

/-- Stepping past the next key keeps every source in its place. -/
theorem Standing.pass (hs : db.table.iter.Pairwise Entry.Before) (hc : ∀ t ∈ db.scanOrder sh, c.On sh d.blocks t)
    (h : Standing sh d.blocks c db start stop maxSeq now last s) (hk : toVisit start last k = true)
    (hmin : ∀ x ∈ heads db s, k ≤ x.key) : Reading .device (advancePastKey sh k)
      (fun o s' => o = .ok () ∧ Standing sh d.blocks c db start stop maxSeq now (some k) s') s d := by
  have hmem : passMem s.maxSeq k s.mem.length s.mem = memLeft db maxSeq start (some k) := by
    have hsees : ∀ e ∈ (memLeft db maxSeq start last).head?, memSees maxSeq e = true :=
      fun e he => (Bool.and_eq_true_iff.mp (head_sees e he)).1
    rw [h.maxSeq_eq, h.mem_eq, passMem_eq hsees le_rfl]
    refine left_behind (key_le_of_before hs) hk (fun e he => ?_) fun e _ => rfl
    refine hmin ⟨e.key, .memtable db.cfg.nodeId e.seq, e.tombstone, e.val.length, e.expireAt, .mem e.val⟩
      (List.mem_append_left _ ?_)
    unfold memHead
    rw [h.mem_eq]
    unfold memLeft
    rw [Option.mem_def.mp he]
    exact List.mem_singleton_self _
  have hcursors : List.Forall₂ (fun t cur => (c.On sh d.blocks t ∧ Follows sh d.blocks c maxSeq start last t cur) ∧
      ∀ x ∈ cur.head, k ≤ x.key) ((db.scanOrder sh).filter (reaches c start stop)) s.cursors := by
    have hall := (List.forall₂_and_left _ _).mpr
      ⟨fun t ht => hc t (List.mem_of_mem_filter (p := reaches c start stop) ht), h.cursors⟩
    have hheads : ∀ cur ∈ s.cursors, ∀ x ∈ cur.head, k ≤ x.key :=
      fun cur hcur x hx => hmin x (List.mem_append_right _ (List.mem_filterMap.mpr ⟨cur, hcur, hx⟩))
    have hflip := (List.forall₂_and_left _ _).mpr ⟨hheads, hall.flip⟩
    exact hflip.flip.imp fun t cur hcur => ⟨hcur.2, hcur.1⟩
  unfold advancePastKey
  refine Reading.get_bind ?_
  refine Reading.bind (Reading.set_ok (Q := fun o s' => o = .ok () ∧ s' = _) _ ⟨rfl, rfl⟩) fun s' d' hd' hs' => ?_
  rw [hs']
  refine Reading.zoom ?_
  dsimp only
  have hstep : ∀ (t : TableRef) (cur : ScanCursor), ((c.On sh d.blocks t ∧ Follows sh d.blocks c maxSeq start last t cur) ∧
      ∀ x ∈ cur.head, k ≤ x.key) → ∀ d'', ReadsOnly d' d'' → Reading .device (ScanCursor.passKey sh s.maxSeq k)
        (fun o cur' => o = .ok () ∧ Follows sh d.blocks c maxSeq start (some k) t cur') cur d'' := by
    intro t cur hcur d'' hd''
    obtain ⟨⟨hon, hfollows⟩, hle⟩ := hcur
    have hsame : d''.blocks = d.blocks := hd''.1.trans hd'.1
    rw [h.maxSeq_eq, ← hsame]
    rw [← hsame] at hon hfollows
    exact Follows.pass hon hfollows hk hle
  exact (Reading.each hcursors hstep).mono fun o cs hp => ⟨hp.1, h.stop_eq, h.maxSeq_eq, h.now_eq, hmem, hp.2⟩

/-- A step past a key leaves fewer entries before the scan. -/
theorem Standing.remaining_lt (h : Standing sh blocks c db start stop maxSeq now last s) (hk : toVisit start last k = true)
    (hon : ∃ x ∈ heads db s, x.key = k) :
    remaining sh c db start stop maxSeq (some k) < remaining sh c db start stop maxSeq last := by
  have hmono : ∀ {α : Type} {sees : α → Bool} {keyOf : α → Bytes} (e : α),
      (!(sees e && toVisit start last (keyOf e))) = true → (!(sees e && toVisit start (some k) (keyOf e))) = true := by
    intro α sees keyOf e he
    rw [toVisit_some hk]
    cases hsee : sees e with
    | false => rfl
    | true =>
      rw [hsee, Bool.true_and, Bool.not_eq_true'] at he
      rw [Bool.true_and, Bool.not_eq_true', decide_eq_false_iff_not]
      intro hlt
      rw [toVisit_mono hk hlt.le] at he
      cases he
  have hend : ∀ {α : Type} {sees : α → Bool} {keyOf : α → Bytes} {e : α}, keyOf e = k →
      (!(sees e && toVisit start (some k) (keyOf e))) = true := by
    intro α sees keyOf e he
    rw [toVisit_some hk, he]
    simp
  obtain ⟨x, hx, hkey⟩ := hon
  unfold remaining
  unfold heads at hx
  have hmemLe : (memLeft db maxSeq start (some k)).length ≤ (memLeft db maxSeq start last).length :=
    length_dropWhile_le fun e _ he => hmono e he
  have htablesLe : ∀ t ∈ (db.scanOrder sh).filter (reaches c start stop),
      (tableLeft c maxSeq start (some k) t).length ≤ (tableLeft c maxSeq start last t).length :=
    fun t _ => length_dropWhile_le fun e _ he => hmono e he
  rcases List.mem_append.mp hx with hx | hx
  · have hlt : (memLeft db maxSeq start (some k)).length < (memLeft db maxSeq start last).length := by
      unfold memHead at hx
      rw [h.mem_eq] at hx
      cases hh : (memLeft db maxSeq start last).head? with
      | none =>
        rw [hh] at hx
        cases hx
      | some e =>
        rw [hh] at hx
        obtain rfl := List.mem_singleton.mp hx
        exact length_dropWhile_lt (fun e _ he => hmono e he) hh (hend hkey)
    have := List.sum_le_sum htablesLe
    omega
  · obtain ⟨t, ht, hlt⟩ : ∃ t ∈ (db.scanOrder sh).filter (reaches c start stop),
        (tableLeft c maxSeq start (some k) t).length < (tableLeft c maxSeq start last t).length := by
      have hcursors := h.cursors
      generalize (db.scanOrder sh).filter (reaches c start stop) = ts at hcursors
      generalize s.cursors = cs at hcursors hx
      induction hcursors with
      | nil => cases hx
      | @cons t cur ts cs hfollows _ ih =>
        cases hh : cur.head with
        | none =>
          rw [List.filterMap_cons_none hh] at hx
          obtain ⟨t', ht', hlt⟩ := ih hx
          exact ⟨t', List.mem_cons_of_mem _ ht', hlt⟩
        | some y =>
          rw [List.filterMap_cons_some hh] at hx
          rcases List.mem_cons.mp hx with rfl | hx
          · refine ⟨t, List.mem_cons_self, ?_⟩
            have hhead := hfollows.head
            rw [hh] at hhead
            cases hl : (tableLeft c maxSeq start last t).head? with
            | none =>
              rw [hl] at hhead
              cases hhead
            | some e =>
              rw [hl] at hhead
              cases hhead with
              | some hxe => exact length_dropWhile_lt (fun e _ he => hmono e he) hl (hend (hxe.1.symm.trans hkey))
          · obtain ⟨t', ht', hlt⟩ := ih hx
            exact ⟨t', List.mem_cons_of_mem _ ht', hlt⟩
    have := List.sum_lt_sum _ _ htablesLe ⟨t, ht, hlt⟩
    omega

theorem Standing.remaining_le (h : Standing sh blocks c db start stop maxSeq now last s) :
    remaining sh c db start stop maxSeq last ≤ s.mem.length + (s.cursors.map fun cur => cur.dataBlocks * sh.BLOCK).sum := by
  unfold remaining
  rw [h.mem_eq]
  refine Nat.add_le_add_left ?_ _
  have hcursors := h.cursors
  generalize (db.scanOrder sh).filter (reaches c start stop) = ts at hcursors
  generalize s.cursors = cs at hcursors
  induction hcursors with
  | nil => exact le_rfl
  | @cons t cur ts cs hfollows _ ih =>
    rw [List.map_cons, List.map_cons, List.sum_cons, List.sum_cons]
    refine Nat.add_le_add ?_ ih
    obtain ⟨n, bs, rdelBlocks, minSeq, hon, -, hahead⟩ := hfollows.ahead
    generalize tableLeft c maxSeq start last t = l at hahead
    have hlen := hahead.suffix.length_le
    have htotal := Cursor.length_flatten_le hon.block
    cases hahead with
    | dead => exact Nat.zero_le _
    | parked live hat he hhead =>
      rw [hat.dataBlocks_eq]
      exact hlen.trans htotal

/-- A forward scan has its sources in their places. -/
theorem places (hs : db.table.iter.Pairwise Entry.Before) (hc : ∀ t ∈ db.scanOrder sh, c.On sh blocks t)
    (start : Bytes) (stop : Option Bytes) (maxSeq now : Nat) :
    (merge sh db).Places sh blocks c db maxSeq now (start ≤ ·) (fun k => stop.any (· ≤ k))
      (fun last n s =>
        Standing sh blocks c db start stop maxSeq now last s ∧ n = remaining sh c db start stop maxSeq last) where
  irrefl k := decide_eq_false (lt_irrefl k)
  trans hab hbc := decide_eq_true ((of_decide_eq_true hab).trans (of_decide_eq_true hbc))
  total hne := (lt_or_gt_of_ne hne).imp (fun h => decide_eq_true h) fun h => decide_eq_true h
  tables := hc
  maxSeq_eq h := h.1.maxSeq_eq
  now_eq h := h.1.now_eq
  ended_eq h := by
    funext k
    exact congrArg (fun o : Option Bytes => o.any (· ≤ k)) h.1.stop_eq
  ended_mono := by
    intro a b ha hab
    cases stop with
    | none => cases ha
    | some e => exact decide_eq_true ((of_decide_eq_true ha).trans (of_decide_eq_true hab).le)
  inside h x hx := by
    have := Bool.and_eq_true_iff.mp (h.1.inside hs hc x hx)
    exact ⟨of_decide_eq_true this.1, this.2⟩
  heads h k hw hend hr hmin := by
    have hk : toVisit start _ k = true := Bool.and_eq_true_iff.mpr ⟨decide_eq_true hw, hr⟩
    exact h.1.heads_at hs hc hk hend fun x hx => not_lt.mp (of_decide_eq_false (hmin x hx))
  rounds h := by
    rw [h.2]
    exact h.1.remaining_le
  pass := by
    intro last n s h k hon hmin d hd
    subst hd
    obtain ⟨x, hx, rfl⟩ := hon
    have hk := h.1.inside hs hc x hx
    refine (h.1.pass hs hc hk fun y hy => not_lt.mp (of_decide_eq_false (hmin y hy))).mono fun o s' hp => ⟨hp.1, ?_⟩
    refine ⟨remaining sh c db start stop maxSeq (some x.key), ?_, hp.2, rfl⟩
    rw [h.2]
    exact h.1.remaining_lt hk ⟨x, hx, rfl⟩

/-! ### Seeking -/

/-- The first park of a cursor, at the seek bound or the live bound. -/
theorem passes_max (maxSeq : Nat) (start firstKey : Bytes) (e : SstEntry) :
    passes maxSeq (some (max start firstKey)) e = (passes maxSeq (some firstKey) e && toVisit start none e.key) := by
  unfold passes toVisit Merge.region
  rw [Option.all_none, Bool.and_true, ← Bool.decide_and, decide_eq_decide]
  simp only [Option.mem_def, Option.some.injEq, forall_eq', max_le_iff]
  tauto

theorem addCursor_spec {t : TableRef} (hc : c.On sh d.blocks t) (s : Scan) :
    Reading .device (addCursor sh t (max start t.firstKey)) (fun o s' => ∀ u, o = .ok u →
      c.points t.id = [] ∧ s' = s ∨
        c.points t.id ≠ [] ∧ ∃ cur, s' = { s with cursors := s.cursors ++ [cur] } ∧
          Follows sh d.blocks c s.maxSeq start none t cur) s d := by
  obtain ⟨k, bs, rdelBlocks, minSeq, hon, hpoints, ht⟩ := pointsTo_of_on hc
  have hsorted : bs.flatten.Pairwise fun x y => x.key ≤ y.key := hpoints ▸ hc.sorted.imp SstEntry.Before.key_le
  unfold addCursor
  rcases ScanCursor.init_spec hon hsorted ht (max start t.firstKey) with ⟨hnil, hinit⟩ |
    ⟨cur, i, b, hinit, hlive, hnode, hwall, hat, hbelow⟩
  · refine Reading.run_bind hinit fun d' _ => ?_
    refine Reading.pure_ok _ fun u _ => Or.inl ⟨?_, rfl⟩
    rw [← hpoints, hnil]
    rfl
  · refine Reading.run_bind hinit fun d' hd' => ?_
    refine Reading.get_bind ?_
    split
    · exact ⟨.refl _, Or.inl fun u hu => by cases hu⟩
    · refine Reading.bind (Reading.set_ok (Q := fun o s' => o = .ok () ∧ s' = _) _ ⟨rfl, rfl⟩) fun s' d'' hd'' hs' => ?_
      rw [hs']
      refine Reading.zoom ?_
      have hlast : (s.cursors ++ [cur]).getLastD cur = cur := by simp
      dsimp only
      rw [hlast]
      have hblocks : d''.blocks = d.blocks := hd''.1.trans hd'.1
      have hpark : Reading .device (ScanCursor.parkCursor sh s.maxSeq (some (max start t.firstKey))) _ cur d'' :=
        ScanCursor.parkCursor_spec (hblocks ▸ hon) hat hlive
      refine hpark.mono fun o cur' hp u _ => Or.inr ⟨?_, cur', ?_, ?_⟩
      · have hmem := List.mem_of_getElem? hat.block
        have hne := (hon.block b hmem).ne_nil
        rw [← hpoints]
        intro hempty
        exact hne (List.flatten_eq_nil_iff.mp hempty b hmem)
      · simp
      · obtain ⟨-, ⟨hnode', hwall'⟩, hahead⟩ := hp
        refine ⟨⟨k, bs, rdelBlocks, minSeq, hon, hpoints, ?_⟩, hnode'.trans hnode, hwall'.trans hwall⟩
        have hdrop : bs.drop i = b :: bs.drop (i + 1) := by
          obtain ⟨hlt, rfl⟩ := List.getElem?_eq_some_iff.mp hat.block
          exact List.drop_eq_getElem_cons hlt
        have hsplit : c.points t.id = (bs.take i).flatten ++ ScanCursor.left bs i b 0 := by
          unfold ScanCursor.left
          rw [← hpoints, List.drop_zero, ← List.flatten_cons, ← hdrop, ← List.flatten_append, List.take_append_drop]
        unfold tableLeft
        rw [hsplit, List.dropWhile_append_of_pos]
        · have hsame : (fun e => !passes s.maxSeq (some (max start t.firstKey)) e) =
              fun e => !(passes s.maxSeq (some t.firstKey) e && toVisit start none e.key) :=
            funext fun e => congrArg not (passes_max _ _ _ e)
          rw [← hsame]
          exact hahead
        · intro e he
          rw [← passes_max]
          unfold passes
          have hlt := hbelow e he
          simp [not_le.mpr hlt]

theorem addCursors_spec {ts done : List TableRef} (hc : ∀ t ∈ ts, c.On sh d.blocks t)
    (hdone : List.Forall₂ (Follows sh d.blocks c s.maxSeq start none) done s.cursors) :
    Reading .device (addCursors sh start ts) (fun o s' => ∀ u, o = .ok u → ∃ cs, s' = { s with cursors := cs } ∧
      List.Forall₂ (Follows sh d.blocks c s.maxSeq start none) (done ++ ts.filter (reaches c start s.stop)) cs) s d := by
  induction ts generalizing s done d with
  | nil =>
    refine Reading.pure_ok _ fun u _ => ⟨s.cursors, rfl, ?_⟩
    rw [List.filter_nil, List.append_nil]
    exact hdone
  | cons t ts ih =>
    unfold addCursors
    refine Reading.get_bind ?_
    have hrest : ∀ t' ∈ ts, c.On sh d.blocks t' := fun t' ht' => hc t' (List.mem_cons_of_mem _ ht')
    by_cases hover : overlaps start s.stop t = true
    · rw [if_pos hover]
      refine Reading.bind_of_ok (addCursor_spec (hc t List.mem_cons_self) s) fun u s' d' hd' hstep => ?_
      have hblocks : d'.blocks = d.blocks := hd'.1
      rcases hstep with ⟨hnil, rfl⟩ | ⟨hne, cur, rfl, hfollows⟩
      · have hno : reaches c start s'.stop t = false := by
          unfold reaches
          rw [hnil]
          simp
        have hgo := ih (hblocks ▸ hrest) (hblocks ▸ hdone)
        rw [hblocks] at hgo
        rw [List.filter_cons_of_neg (by simp [hno])]
        exact hgo
      · have hyes : reaches c start s.stop t = true := by
          unfold reaches
          rw [hover]
          simpa using hne
        have happ := List.rel_append hdone (.cons hfollows .nil)
        have hgo : Reading .device (addCursors sh start ts) _ { s with cursors := s.cursors ++ [cur] } d' :=
          ih (hblocks ▸ hrest) (hblocks ▸ happ)
        rw [hblocks] at hgo
        rw [List.filter_cons_of_pos hyes]
        refine hgo.mono fun o s' hp u hu => ?_
        obtain ⟨cs, rfl, hcs⟩ := hp u hu
        refine ⟨cs, rfl, ?_⟩
        rw [List.append_assoc] at hcs
        exact hcs
    · rw [if_neg hover]
      have hno : reaches c start s.stop t = false := by
        unfold reaches
        rw [Bool.not_eq_true] at hover
        rw [hover, Bool.false_and]
      rw [List.filter_cons_of_neg (by simp [hno])]
      exact ih hrest hdone

/-- A seek that succeeds puts every source in its place. -/
theorem seek_spec (hs : db.table.iter.Pairwise Entry.Before) (hc : ∀ t ∈ db.scanOrder sh, c.On sh d.blocks t) (s : Scan) :
    Reading .device (seekWithTime sh db start stop maxSeq now) (fun o s' => ∀ u, o = .ok u →
      Standing sh d.blocks c db start stop maxSeq now none s') s d := by
  unfold seekWithTime
  split
  · exact ⟨.refl _, Or.inl fun u hu => by cases hu⟩
  split
  · exact ⟨.refl _, Or.inl fun u hu => by cases hu⟩
  refine Reading.bind_of_ok (K := fun _ _ => True) ?_ fun _ s₁ d₁ hd₁ _ => ?_
  · cases hcheck : checkStop sh stop with
    | error e => exact ⟨.refl _, Or.inl fun u hu => trivial⟩
    | ok u => exact ⟨.refl _, Or.inl fun u hu => trivial⟩
  refine Reading.bind (Reading.set_ok (Q := fun o s' => o = .ok () ∧ s' = _) _ ⟨rfl, rfl⟩) fun s₂ d₂ hd₂ hs₂ => ?_
  have hblocks : d₂.blocks = d.blocks := hd₂.1.trans hd₁.1
  rw [hs₂]
  have hnil : List.Forall₂ (Follows sh d₂.blocks c maxSeq start none) [] ([] : List ScanCursor) := .nil
  have hgo : Reading .device (addCursors sh start (db.scanOrder sh)) _
      ⟨stop, maxSeq, now, advanceMem maxSeq (db.table.iter.drop (db.table.lowerBound start)), []⟩ d₂ :=
    addCursors_spec (hblocks ▸ hc) hnil
  rw [hblocks] at hgo
  refine hgo.mono fun o s' hp u hu => ?_
  obtain ⟨cs, rfl, hcs⟩ := hp u hu
  exact ⟨rfl, rfl, rfl, seekMem_eq hs maxSeq start, hcs⟩

end Scan

end Scans

end Horton
