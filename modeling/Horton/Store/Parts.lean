import Horton.Store.Sources

/-!
# The parts of a store

The entries that a handle keeps, one part for the memtable and one for each table.  A source of a key sees its part.
-/

namespace Horton

open BlockDev Sstable

/-- A version in a table, as an entry. -/
def SstEntry.entry (e : SstEntry) : Entry := ⟨e.key, e.val, e.seq, e.tombstone, false, e.expireAt⟩

/-- A range tombstone in a table, as an entry. -/
def RdelEntry.entry (r : RdelEntry) : Entry := ⟨r.start, r.stop, r.seq, true, true, 0⟩

namespace Contents

/-- The entries of table `id`. -/
def part (c : Contents) (id : Nat) : List Entry := (c.points id).map SstEntry.entry ++ (c.rdels id).map RdelEntry.entry

/-- The bounds of a ref hold all of its table. -/
structure Within (c : Contents) (t : TableRef) : Prop where
  points : ∀ e ∈ c.points t.id, t.firstKey ≤ e.key ∧ e.key ≤ t.lastKey
  rdels : ∀ r ∈ c.rdels t.id, t.firstKey ≤ r.start ∧ r.stop ≤ t.lastKey

end Contents

variable {sh : Shape} {blocks : Nat → Bytes} {c : Contents} {db : Db} {key : Bytes} {maxSeq : Nat}

namespace MemTable

variable {t : MemTable}

/-- A sorted memtable answers with the newest version of the key. -/
theorem getAt_iff (hs : t.iter.Pairwise Entry.Before) (r : Lookup) : t.getAt key maxSeq = some r ↔
    ∃ e, Newest Entry.seq (Entry.Version key maxSeq) t.iter e ∧ r = e.lookup := by
  have hdrop : t.iter.drop (t.lowerBound key) = (t.slots.drop (t.lowerBound key)).map t.entryOf := by
    rw [iter, List.map_drop]
  have hsorted : ((t.slots.drop (t.lowerBound key)).map t.entryOf).Pairwise Entry.Before := by
    rw [← hdrop]
    exact hs.sublist (List.drop_sublist _ _)
  have hle : ∀ s ∈ t.slots.drop (t.lowerBound key), key ≤ t.slotKey s := by
    intro s hs'
    refine key_le_of_drop hs (e := t.entryOf s) ?_
    rw [hdrop]
    exact List.mem_map_of_mem hs'
  have hbefore : ∀ e ∈ t.iter.take (t.lowerBound key), ¬e.Version key maxSeq := by
    intro e he hv
    exact absurd hv.2.1 (ne_of_lt (key_lt_of_take he))
  rw [getAt_eq, walkRun_spec hsorted hle, ← hdrop]
  conv_rhs => rw [← List.take_append_drop (t.lowerBound key) t.iter]
  simp only [Newest.append_of_not hbefore]

end MemTable

namespace Db

theorem memtableSource_sees (hs : db.table.iter.Pairwise Entry.Before) (key : Bytes) (maxSeq : Nat) :
    Source.Sees db.cfg.nodeId key maxSeq U64_MAX db.table.iter (db.memtableSource key maxSeq) := by
  constructor
  · intro h
    unfold memtableSource
    dsimp only
    rw [Option.map_eq_some_iff]
    constructor
    · rintro ⟨r, hr, rfl⟩
      obtain ⟨e, he, rfl⟩ := (MemTable.getAt_iff hs r).mp hr
      exact ⟨e, he, rfl⟩
    · rintro ⟨e, he, rfl⟩
      exact ⟨e.lookup, (MemTable.getAt_iff hs _).mpr ⟨e, he, rfl⟩, rfl⟩
  · intro q
    unfold memtableSource
    dsimp only
    rw [Option.map_eq_some_iff]
    simp only [MemTable.maxCoveringRdel_eq, newestStamp_eq_some, decide_eq_true_eq]
    constructor
    · rintro ⟨m, ⟨e, he, rfl⟩, rfl⟩
      exact ⟨e, he, rfl⟩
    · rintro ⟨e, he, rfl⟩
      exact ⟨e.seq, ⟨e, he, rfl⟩, rfl⟩

end Db

namespace Contents

/-- The versions in a part are the points of its table. -/
theorem newest_version (c : Contents) (id : Nat) (e : Entry) : Newest Entry.seq (Entry.Version key maxSeq) (c.part id) e ↔
    ∃ x, Newest SstEntry.seq (fun x => x.key = key ∧ x.seq ≤ maxSeq) (c.points id) x ∧ e = x.entry := by
  constructor
  · rintro ⟨he, hver, hmax⟩
    rcases List.mem_append.mp he with he | he
    · obtain ⟨x, hx, rfl⟩ := List.mem_map.mp he
      refine ⟨x, ⟨hx, ⟨hver.2.1, hver.2.2⟩, fun y hy hyp => ?_⟩, rfl⟩
      exact hmax y.entry (List.mem_append_left _ (List.mem_map_of_mem hy)) ⟨rfl, hyp.1, hyp.2⟩
    · obtain ⟨r, -, rfl⟩ := List.mem_map.mp he
      cases hver.1
  · rintro ⟨x, ⟨hx, hxp, hmax⟩, rfl⟩
    refine ⟨List.mem_append_left _ (List.mem_map_of_mem hx), ⟨rfl, hxp.1, hxp.2⟩, fun b hb hver => ?_⟩
    rcases List.mem_append.mp hb with hb | hb
    · obtain ⟨y, hy, rfl⟩ := List.mem_map.mp hb
      exact hmax y hy ⟨hver.2.1, hver.2.2⟩
    · obtain ⟨r, -, rfl⟩ := List.mem_map.mp hb
      cases hver.1

/-- The range tombstones in a part are those of its table. -/
theorem newest_covers (c : Contents) (id : Nat) (e : Entry) : Newest Entry.seq (Entry.Covers key maxSeq) (c.part id) e ↔
    ∃ r, Newest RdelEntry.seq (fun r => r.seq ≤ maxSeq ∧ r.start ≤ key ∧ key < r.stop) (c.rdels id) r ∧ e = r.entry := by
  constructor
  · rintro ⟨he, hcov, hmax⟩
    rcases List.mem_append.mp he with he | he
    · obtain ⟨x, -, rfl⟩ := List.mem_map.mp he
      cases hcov.1
    · obtain ⟨r, hr, rfl⟩ := List.mem_map.mp he
      refine ⟨r, ⟨hr, hcov.2, fun b hb hbp => ?_⟩, rfl⟩
      exact hmax b.entry (List.mem_append_right _ (List.mem_map_of_mem hb)) ⟨rfl, hbp⟩
  · rintro ⟨r, ⟨hr, hrp, hmax⟩, rfl⟩
    refine ⟨List.mem_append_right _ (List.mem_map_of_mem hr), ⟨rfl, hrp⟩, fun b hb hcov => ?_⟩
    rcases List.mem_append.mp hb with hb | hb
    · obtain ⟨x, -, rfl⟩ := List.mem_map.mp hb
      cases hcov.1
    · obtain ⟨y, hy, rfl⟩ := List.mem_map.mp hb
      exact hmax y hy hcov.2

end Contents

namespace Db

/-- The first visible version of a sorted table is the newest. -/
theorem visible_eq_some {es : List SstEntry} (hs : es.Pairwise SstEntry.Before) {x : SstEntry} :
    visible es key maxSeq = some x ↔ Newest SstEntry.seq (fun x => x.key = key ∧ x.seq ≤ maxSeq) es x := by
  have hto : ∀ {x}, Newest SstEntry.seq (fun x => x.key = key ∧ x.seq ≤ maxSeq) es x → visible es key maxSeq = some x := by
    rintro x ⟨hx, ⟨hkey, hseq⟩, hmax⟩
    exact visible_newest hs hx hkey hseq fun y hy hykey hyseq => hmax y hy ⟨hykey, hyseq⟩
  refine ⟨fun h => ?_, hto⟩
  rcases newestOf_spec SstEntry.seq (fun x => x.key = key ∧ x.seq ≤ maxSeq) es with ⟨-, hnone⟩ | ⟨y, -, hy⟩
  · unfold visible at h
    have hp := List.find?_some h
    exact absurd (by simpa using hp) (hnone x (List.mem_of_find?_eq_some h))
  · have heq := hto hy
    rw [h] at heq
    rw [Option.some.inj heq]
    exact hy

theorem tableSource_sees {t : TableRef} (hs : (c.points t.id).Pairwise SstEntry.Before) (hw : c.Within t) (key : Bytes)
    (maxSeq : Nat) : Source.Sees t.nodeId key maxSeq t.sealWall (c.part t.id) (tableSource c key maxSeq t) := by
  unfold tableSource
  split
  · constructor
    · intro h
      dsimp only
      rw [Option.map_eq_some_iff]
      constructor
      · rintro ⟨x, hx, rfl⟩
        exact ⟨x.entry, (c.newest_version t.id _).mpr ⟨x, (visible_eq_some hs).mp hx, rfl⟩, rfl⟩
      · rintro ⟨e, he, rfl⟩
        obtain ⟨x, hx, rfl⟩ := (c.newest_version t.id e).mp he
        exact ⟨x, (visible_eq_some hs).mpr hx, rfl⟩
    · intro q
      dsimp only
      rw [Option.map_eq_some_iff]
      constructor
      · rintro ⟨m, hm, rfl⟩
        obtain ⟨r, hr, rfl⟩ := covering_eq_some.mp hm
        exact ⟨r.entry, (c.newest_covers t.id _).mpr ⟨r, hr, rfl⟩, rfl⟩
      · rintro ⟨e, he, rfl⟩
        obtain ⟨r, hr, rfl⟩ := (c.newest_covers t.id e).mp he
        exact ⟨r.seq, covering_eq_some.mpr ⟨r, hr, rfl⟩, rfl⟩
  · rename_i hout
    have hnot : ¬(t.firstKey ≤ key ∧ key ≤ t.lastKey) := by
      simpa [TableRef.covers] using hout
    constructor
    · intro h
      constructor
      · intro hh
        cases hh
      · rintro ⟨e, he, -⟩
        obtain ⟨x, ⟨hx, ⟨rfl, -⟩, -⟩, -⟩ := (c.newest_version t.id e).mp he
        exact absurd (hw.points x hx) hnot
    · intro q
      constructor
      · intro hq
        cases hq
      · rintro ⟨e, he, -⟩
        obtain ⟨r, ⟨hr, ⟨-, h1, h2⟩, -⟩, -⟩ := (c.newest_covers t.id e).mp he
        obtain ⟨h3, h4⟩ := hw.rdels r hr
        exact absurd ⟨h3.trans h1, (h2.trans_le h4).le⟩ hnot

end Db

/-! ### The store of a handle -/

/-- All entries of a handle. -/
def Db.entries (sh : Shape) (c : Contents) (db : Db) : List Entry :=
  db.table.iter ++ (db.scanOrder sh).flatMap fun t => c.part t.id

/-- The tables of a handle lie on the device, and all of them are of its own node. -/
structure Db.Stores (sh : Shape) (blocks : Nat → Bytes) (c : Contents) (db : Db) : Prop where
  sorted : db.table.iter.Pairwise Entry.Before
  tables : ∀ t ∈ db.scanOrder sh, c.On sh blocks t ∧ c.Within t ∧ t.nodeId = db.cfg.nodeId
  numbered : Entry.Numbered (db.entries sh c)

namespace Db.Stores

/-- The sources of a key see the entries of the handle. -/
theorem seen (h : db.Stores sh blocks c) (key : Bytes) (maxSeq : Nat) :
    Source.Seen db.cfg.nodeId key maxSeq (db.entries sh c) (db.sourcesAt sh c key maxSeq) := by
  have hn := h.numbered
  have htables := h.tables
  unfold Db.entries at hn ⊢
  unfold Db.sourcesAt Db.sources
  refine Source.Seen.cons ?_ (memtableSource_sees h.sorted key maxSeq) hn
  replace hn := hn.sublist (List.sublist_append_right _ _)
  generalize db.scanOrder sh = ts at hn htables ⊢
  induction ts with
  | nil => exact Source.seen_nil _ _ _
  | cons t ts ih =>
    rw [List.flatMap_cons] at hn ⊢
    rw [List.map_cons]
    obtain ⟨hon, hw, hnode⟩ := htables t List.mem_cons_self
    have hrest := ih (hn.sublist (List.sublist_append_right _ _)) fun t' ht' => htables t' (List.mem_cons_of_mem _ ht')
    exact hrest.cons (hnode ▸ tableSource_sees hon.sorted hw key maxSeq) hn

/-- The sources of a key show what a read of a log with the same entries finds. -/
theorem shown_eq (h : db.Stores sh blocks c) {log : List Record} (hlog : (db.entries sh c).Perm (log.map Record.entry))
    (key : Bytes) (maxSeq now : Nat) : shown (db.sourcesAt sh c key maxSeq) now = History.get log key maxSeq now := by
  rw [(h.seen key maxSeq).shown_eq h.numbered, newestOf_perm hlog h.numbered.apart, History.get_eq]

end Db.Stores

end Horton
