import Horton.Scan.Answer
import Horton.Lib.Heads
import Horton.MemTable.Refine

/-!
# Parked sources

What a scan needs of its sources in either direction.  A source is `Parked` when its head stands for the first version in
the region still to visit; on the next key of all heads, the heads there are what the sources of the key hold (`heads_at`).
-/

namespace Horton

open BlockDev Sstable

namespace Scans

variable {sh : Shape} {blocks : Nat → Bytes} {c : Contents} {db : Db} {maxSeq : Nat} {key k : Bytes} {t : TableRef}

/-! ### The versions a scan sees -/

/-- A slot that is a version a scan at `maxSeq` sees; range tombstones are not versions of their start. -/
def memSees (maxSeq : Nat) (e : Entry) : Bool := decide (e.seq ≤ maxSeq) && !e.rangeDel

/-- An entry that a scan at `maxSeq` sees, at or above the floor. -/
def passes (maxSeq : Nat) (floor : Option Bytes) (e : SstEntry) : Bool := decide (e.seq ≤ maxSeq ∧ ∀ f ∈ floor, f ≤ e.key)

def memHit (db : Db) (e : Entry) : Hit := ⟨.memtable db.cfg.nodeId e.seq, e.tombstone, e.val, e.expireAt⟩

def tableHit (t : TableRef) (e : SstEntry) : Hit := ⟨.table t.nodeId t.sealWall e.seq, e.tombstone, e.val, e.expireAt⟩

theorem key_le_of_before {l : List Entry} (h : l.Pairwise Entry.Before) : l.Pairwise fun a b => a.key ≤ b.key :=
  h.imp fun hab => hab.elim le_of_lt fun h => h.1.le

/-- A lookup in the memtable finds the first visible version. -/
theorem getAt_find (hs : db.table.iter.Pairwise Entry.Before) (key : Bytes) (maxSeq : Nat) :
    db.table.getAt key maxSeq =
      ((db.table.iter.filter (memSees maxSeq)).find? fun e => decide (e.key = key)).map Entry.lookup := by
  have hwalk : ∀ l : List Slot, (l.map db.table.entryOf).Pairwise Entry.Before → (∀ x ∈ l, key ≤ db.table.slotKey x) →
      db.table.walkRun key maxSeq l =
        (((l.map db.table.entryOf).filter (memSees maxSeq)).find? fun e => decide (e.key = key)).map Entry.lookup := by
    intro l
    induction l with
    | nil => exact fun _ _ => rfl
    | cons x l ih =>
      intro hs hle
      rw [List.map_cons, List.pairwise_cons] at hs
      have hnext := ih hs.2 fun y hy => hle y (List.mem_cons_of_mem _ hy)
      have hskip : ∀ e, memSees maxSeq e = false ∨ e.key ≠ key →
        ((e :: l.map db.table.entryOf).filter (memSees maxSeq)).find?
          (fun e => decide (e.key = key)) = ((l.map db.table.entryOf).filter (memSees maxSeq)).find?
          (fun e => decide (e.key = key)) := by
        intro e he
        rcases he with he | he
        · rw [List.filter_cons_of_neg (by simp [he])]
        · by_cases hsee : memSees maxSeq e = true
          · rw [List.filter_cons_of_pos hsee, List.find?_cons_of_neg (by simpa using he)]
          · rw [List.filter_cons_of_neg hsee]
      rw [MemTable.walkRun, List.map_cons]
      by_cases hkey : db.table.slotKey x = key
      · rw [if_neg (not_not.mpr hkey)]
        by_cases hrdel : x.rangeDel = true
        · rw [if_pos hrdel, hnext, hskip]
          left
          unfold memSees MemTable.entryOf
          simp [hrdel]
        · rw [if_neg hrdel]
          by_cases hseq : x.seq ≤ maxSeq
          · rw [if_pos hseq]
            have hsee : memSees maxSeq (db.table.entryOf x) = true := by
              unfold memSees MemTable.entryOf
              simp [hseq, hrdel]
            have hfirst : ∀ es, (db.table.entryOf x :: es).find? (fun e => decide (e.key = key)) =
              some (db.table.entryOf x) :=
              fun es => List.find?_cons_of_pos (decide_eq_true hkey)
            rw [List.filter_cons_of_pos hsee, hfirst]
            rfl
          · rw [if_neg hseq, hnext, hskip]
            left
            unfold memSees MemTable.entryOf
            simp [hseq]
      · rw [if_pos hkey]
        have hlt : key < db.table.slotKey x := lt_of_le_of_ne (hle x List.mem_cons_self) (Ne.symm hkey)
        symm
        rw [Option.map_eq_none_iff, List.find?_eq_none]
        intro e he
        have hmem := (List.mem_filter.mp he).1
        have hkle : db.table.slotKey x ≤ e.key := by
          rcases List.mem_cons.mp hmem with rfl | hmem
          · exact le_rfl
          · rcases hs.1 e hmem with hlt | ⟨heq, -⟩
            · exact hlt.le
            · exact heq.le
        simpa using ne_of_gt (lt_of_lt_of_le hlt hkle)
  have hdrop : db.table.iter.drop (db.table.lowerBound key) =
      (db.table.slots.drop (db.table.lowerBound key)).map db.table.entryOf := by
    unfold MemTable.iter
    rw [List.map_drop]
  rw [MemTable.getAt_eq, hwalk, ← hdrop]
  · conv_rhs => rw [← List.take_append_drop (db.table.lowerBound key) db.table.iter]
    have hbelow : ((db.table.iter.take (db.table.lowerBound key)).filter (memSees maxSeq)).find?
        (fun e => decide (e.key = key)) = none := by
      rw [List.find?_eq_none]
      intro e he
      simpa using ne_of_lt (MemTable.key_lt_of_take (List.mem_filter.mp he).1)
    rw [List.filter_append, List.find?_append, hbelow, Option.none_or]
  · rw [← hdrop]
    exact hs.sublist (List.drop_sublist _ _)
  · intro x hx
    have hmem : db.table.entryOf x ∈ db.table.iter.drop (db.table.lowerBound key) := by
      rw [hdrop]
      exact List.mem_map_of_mem hx
    exact MemTable.key_le_of_drop hs hmem

theorem memtableSource_hit (hs : db.table.iter.Pairwise Entry.Before) (key : Bytes) (maxSeq : Nat) :
    (db.memtableSource key maxSeq).hit =
      ((db.table.iter.filter (memSees maxSeq)).find? fun e => decide (e.key = key)).map (memHit db) := by
  unfold Db.memtableSource
  rw [getAt_find hs, Option.map_map]
  rfl

/-- A table holds what its entries at or above the live bound say. -/
theorem tableSource_hit (hc : c.On sh blocks t) (key : Bytes) (maxSeq : Nat) :
    (Db.tableSource c key maxSeq t).hit =
      (((c.points t.id).filter (passes maxSeq (some t.firstKey))).find? fun e => decide (e.key = key)).map (tableHit t) := by
  unfold Db.tableSource TableRef.covers
  rw [List.find?_filter]
  by_cases hcov : t.firstKey ≤ key ∧ key ≤ t.lastKey
  · rw [if_pos (decide_eq_true hcov)]
    have hsame : (fun e : SstEntry => decide (passes maxSeq (some t.firstKey) e = true ∧ decide (e.key = key) = true)) =
        fun e => decide (e.key = key ∧ e.seq ≤ maxSeq) := by
      funext e
      unfold passes
      rw [decide_eq_decide]
      simp only [Option.mem_def, Option.some.injEq, forall_eq', decide_eq_true_eq]
      constructor
      · exact fun h => ⟨h.2, h.1.1⟩
      · rintro ⟨rfl, hseq⟩
        exact ⟨⟨hseq, hcov.1⟩, rfl⟩
    rw [hsame]
    rfl
  · rw [if_neg (by simpa using hcov)]
    symm
    rw [Option.map_eq_none_iff, List.find?_eq_none]
    intro e he hsees
    obtain ⟨hp, hkey⟩ := of_decide_eq_true hsees
    obtain rfl := of_decide_eq_true hkey
    unfold passes at hp
    exact hcov ⟨(of_decide_eq_true hp).2 _ rfl, hc.last_le e he⟩

/-! ### Heads -/

theorem Head.for_mem (db : Db) (e : Entry) :
    Head.For sh blocks ⟨e.key, .memtable db.cfg.nodeId e.seq, e.tombstone, e.val.length, e.expireAt, .mem e.val⟩
      (memHit db e) where
  ver := rfl
  tombstone := rfl
  val _ := ⟨rfl, rfl, rfl⟩

/-- The head of a cursor on an entry of a table. -/
theorem Head.for_entry {k : Nat} {bs : List (List SstEntry)} {rdelBlocks minSeq : Nat}
    (h : TableOn sh blocks t.firstBlock k bs rdelBlocks minSeq) {i m : Nat} {b : List SstEntry} {e : SstEntry}
    (hb : bs[i]? = some b) (he : b[m]? = some e) :
    Head.For sh blocks ⟨e.key, .table t.nodeId t.sealWall e.seq, e.tombstone, (stored e).val.length, (stored e).expireAt,
      .block (t.firstBlock + i) (offsetOf b m) (rstartOf sh b)⟩ (tableHit t e) where
  ver := rfl
  tombstone := rfl
  val ht := by
    have hok := h.block b (List.mem_of_getElem? hb)
    have htomb : e.tombstone = false := ht
    have hstored : stored e = e := stored_eq_self fun h => by
      rw [htomb] at h
      cases h
    refine ⟨by rw [hstored]; rfl, by rw [hstored]; rfl, ?_⟩
    unfold Place.load
    rw [Reads.eval_bind, (h.data i b hb).readDataBlock hok]
    dsimp only [Except.bind]
    rw [Reads.eval_bind, Reads.eval_ofExcept, parseDataEntry_spec hok he, hstored]
    rfl

/-! ### Parked sources -/

section Parked

variable {α : Type} {r : Bytes → Bytes → Prop} {keyOf : α → Bytes} {hitOf : α → Hit} {l : List α} {P : Bytes → Prop}
  {head : Option Head}

/-- The head of a source stands for the first version of the `r`-least key in the region `P`. -/
def Parked (sh : Shape) (blocks : Nat → Bytes) (r : Bytes → Bytes → Prop) (keyOf : α → Bytes) (hitOf : α → Hit) (l : List α)
    (P : Bytes → Prop) (head : Option Head) : Prop :=
  ∃ o, IsHead r keyOf l P o ∧ Option.Rel (fun h a => h.key = keyOf a ∧ h.For sh blocks (hitOf a)) head o

theorem Parked.inside (h : Parked sh blocks r keyOf hitOf l P head) {x : Head} (hx : head = some x) : P x.key := by
  obtain ⟨o, ho, hrel⟩ := h
  rw [hx] at hrel
  cases hrel with
  | some hxa =>
    rw [hxa.1]
    exact ho.1

/-- On a key that no head precedes, the head is what the source holds for the key. -/
theorem Parked.at [Std.Antisymm r] (h : Parked sh blocks r keyOf hitOf l P head) (hk : P k)
    (hle : ∀ x, head = some x → r k x.key) : Option.Rel (Head.For sh blocks) (head.filter fun x => decide (x.key = k))
      ((l.find? fun a => decide (keyOf a = k)).map hitOf) := by
  obtain ⟨o, ho, hrel⟩ := h
  have hfind : o.filter (fun a => decide (keyOf a = k)) = l.find? fun a => decide (keyOf a = k) := by
    apply ho.filter_eq hk
    intro a ha
    cases hrel with
    | none => cases ha
    | some hxa =>
      rw [← Option.some.inj ha, ← hxa.1]
      exact hle _ rfl
  rw [← hfind]
  cases hrel with
  | none => exact .none
  | @some x a hxa =>
    rw [Option.filter_some, Option.filter_some, hxa.1]
    split
    · exact .some hxa.2
    · exact .none

end Parked

private theorem toList_of_rel {α β : Type} {R : α → β → Prop} {a : Option α} {b : Option β} (h : Option.Rel R a b) :
    List.Forall₂ R a.toList b.toList := by
  cases h with
  | none => exact .nil
  | some hab => exact .cons hab .nil

private theorem filter_toList {α : Type} (p : α → Bool) (o : Option α) : o.toList.filter p = (o.filter p).toList := by
  cases o with
  | none => rfl
  | some a => cases hp : p a <;> simp [hp, Option.filter]

variable {γ : Type} {headOf : γ → Option Head} {cursors : List γ} {keep : TableRef → Bool} {memHead : Option Head}
  {r : Bytes → Bytes → Prop} {P : Bytes → Prop}

/-- The heads lie in the region still to visit. -/
theorem heads_inside {ts : List TableRef}
    (hmem : Parked sh blocks r Entry.key (memHit db) (db.table.iter.filter (memSees maxSeq)) P memHead)
    (hcur : List.Forall₂ (fun t cur => Parked sh blocks r SstEntry.key (tableHit t)
      ((c.points t.id).filter (passes maxSeq (some t.firstKey))) P (headOf cur)) ts cursors) :
    ∀ x ∈ memHead.toList ++ cursors.filterMap headOf, P x.key := by
  have htables : ∀ x ∈ cursors.filterMap headOf, P x.key := by
    clear hmem
    induction hcur with
    | nil => exact fun x hx => by cases hx
    | @cons t cur ts cursors hpark _ ih =>
      intro x hx
      cases hh : headOf cur with
      | none =>
        rw [List.filterMap_cons_none hh] at hx
        exact ih x hx
      | some y =>
        rw [List.filterMap_cons_some hh] at hx
        rcases List.mem_cons.mp hx with rfl | hx
        · exact hpark.inside hh
        · exact ih x hx
  intro x hx
  rcases List.mem_append.mp hx with hx | hx
  · exact hmem.inside (by simpa using hx)
  · exact htables x hx

/-- The heads on the next key are what the sources of the key hold. -/
theorem heads_at [Std.Antisymm r] (hs : db.table.iter.Pairwise Entry.Before) (hc : ∀ t ∈ db.scanOrder sh, c.On sh blocks t)
    (hmem : Parked sh blocks r Entry.key (memHit db) (db.table.iter.filter (memSees maxSeq)) P memHead)
    (hcur : List.Forall₂ (fun t cur => Parked sh blocks r SstEntry.key (tableHit t)
      ((c.points t.id).filter (passes maxSeq (some t.firstKey))) P (headOf cur)) ((db.scanOrder sh).filter keep) cursors)
    (hskip : ∀ t ∈ db.scanOrder sh, keep t = false → (Db.tableSource c k maxSeq t).hit = none) (hk : P k)
    (hle : ∀ x ∈ memHead.toList ++ cursors.filterMap headOf, r k x.key) :
    List.Forall₂ (Head.For sh blocks) ((memHead.toList ++ cursors.filterMap headOf).filter fun x => decide (x.key = k))
      ((db.sourcesAt sh c k maxSeq).filterMap Source.hit) := by
  have hfirst := toList_of_rel (hmem.at hk fun x hx => hle x (by simp [hx]))
  rw [← memtableSource_hit hs, ← filter_toList] at hfirst
  have htables : List.Forall₂ (Head.For sh blocks) ((cursors.filterMap headOf).filter fun x => decide (x.key = k))
      (((db.scanOrder sh).map (Db.tableSource c k maxSeq)).filterMap Source.hit) := by
    have hrest : ∀ x ∈ cursors.filterMap headOf, r k x.key := fun x hx => hle x (List.mem_append_right _ hx)
    clear hle hmem hfirst
    generalize db.scanOrder sh = ts at hc hcur hskip
    induction ts generalizing cursors with
    | nil =>
      obtain rfl := List.forall₂_nil_left_iff.mp hcur
      exact .nil
    | cons t ts ih =>
      have hcs : ∀ t' ∈ ts, c.On sh blocks t' := fun t' ht' => hc t' (List.mem_cons_of_mem _ ht')
      have hskips : ∀ t' ∈ ts, keep t' = false → (Db.tableSource c k maxSeq t').hit = none :=
        fun t' ht' => hskip t' (List.mem_cons_of_mem _ ht')
      rw [List.map_cons]
      by_cases hkeep : keep t = true
      · rw [List.filter_cons_of_pos hkeep] at hcur
        obtain ⟨cur, cursors', hpark, hcur', rfl⟩ := List.forall₂_cons_left_iff.mp hcur
        have hhead : Option.Rel (Head.For sh blocks) ((headOf cur).filter fun x => decide (x.key = k))
            (Db.tableSource c k maxSeq t).hit := by
          rw [tableSource_hit (hc t List.mem_cons_self)]
          refine hpark.at hk fun x hx => hrest x ?_
          exact List.mem_filterMap.mpr ⟨cur, List.mem_cons_self, hx⟩
        have hheads : ∀ x ∈ cursors'.filterMap headOf, r k x.key := by
          intro x hx
          obtain ⟨cur', hmem, hx⟩ := List.mem_filterMap.mp hx
          exact hrest x (List.mem_filterMap.mpr ⟨cur', List.mem_cons_of_mem _ hmem, hx⟩)
        have hgo := ih hheads hcs hcur' hskips
        have hone := toList_of_rel hhead
        rw [← filter_toList] at hone
        have happ := List.rel_append hone hgo
        dsimp only at happ
        rw [← List.filter_append] at happ
        have hl : (cur :: cursors').filterMap headOf = (headOf cur).toList ++ cursors'.filterMap headOf := by
          cases hh : headOf cur with
          | none => rw [List.filterMap_cons_none hh]; rfl
          | some x => rw [List.filterMap_cons_some hh]; rfl
        have hr : (Db.tableSource c k maxSeq t :: ts.map (Db.tableSource c k maxSeq)).filterMap Source.hit =
            (Db.tableSource c k maxSeq t).hit.toList ++ (ts.map (Db.tableSource c k maxSeq)).filterMap Source.hit := by
          cases hh : (Db.tableSource c k maxSeq t).hit with
          | none => rw [List.filterMap_cons_none hh]; rfl
          | some x => rw [List.filterMap_cons_some hh]; rfl
        rw [hl, hr]
        exact happ
      · rw [List.filter_cons_of_neg hkeep] at hcur
        rw [List.filterMap_cons_none (hskip t List.mem_cons_self (by simpa using hkeep))]
        exact ih hrest hcs hcur hskips
  have hall := List.rel_append hfirst htables
  dsimp only at hall
  rw [← List.filter_append] at hall
  have hr : (db.sourcesAt sh c k maxSeq).filterMap Source.hit = (db.memtableSource k maxSeq).hit.toList ++
      ((db.scanOrder sh).map (Db.tableSource c k maxSeq)).filterMap Source.hit := by
    unfold Db.sourcesAt Db.sources
    cases hh : (db.memtableSource k maxSeq).hit with
    | none => rw [List.filterMap_cons_none hh]; rfl
    | some x => rw [List.filterMap_cons_some hh]; rfl
  rw [hr]
  exact hall

end Scans

end Horton
