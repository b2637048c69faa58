import Horton.MemTable.Refine
import Horton.Sstable.Capacity

/-!
# How many blocks a memtable takes

Every insert checks the sizes of its key and value and the capacity (`MemTable.Checked`), so the number and the bytes of
the entries are bounded, and with them the blocks of the two sections a flush packs (`MemTable.Checked.blocks_le`).  The
bound holds for whatever calls filled the table (`packing_bound`).
-/

namespace Horton

open BlockDev Sstable

variable {sh : Shape}

/-- The sizes that the checks of an insert grant. -/
structure Entry.Checked (sh : Shape) (e : Entry) : Prop where
  key_le : e.key.length ≤ sh.KEY_MAX
  val_le : e.rangeDel = false → e.val.length ≤ sh.VAL_MAX
  stop_le : e.rangeDel = true → e.val.length ≤ sh.KEY_MAX

namespace MemTable

/-- The bytes of an entry in the arena. -/
def entryBytes (es : List Entry) : Nat := (es.map fun e => e.key.length + e.val.length).sum

theorem entryBytes_append (a b : List Entry) : entryBytes (a ++ b) = entryBytes a + entryBytes b := by
  simp [entryBytes]

theorem entryBytes_cons (e : Entry) (es : List Entry) :
    entryBytes (e :: es) = e.key.length + e.val.length + entryBytes es := by simp [entryBytes]

/-- The capacity is kept, every entry has bytes of its own and passed the size checks. -/
structure Checked (sh : Shape) (t : MemTable) : Prop where
  intact : t.Intact
  len_le : t.len ≤ sh.CAP
  arena_le : t.arena.length ≤ sh.ARENA
  bytes : entryBytes t.iter ≤ t.arena.length
  entry : ∀ e ∈ t.iter, e.Checked sh

theorem checked_new (sh : Shape) : new.Checked sh :=
  ⟨intact_new, Nat.zero_le _, Nat.zero_le _, Nat.zero_le _, by simp [iter, new]⟩

theorem checked_clear (t : MemTable) : t.clear.Checked sh :=
  ⟨intact_clear t, Nat.zero_le _, Nat.zero_le _, Nat.zero_le _, by simp [iter, clear]⟩

variable {t t' : MemTable} {p : Plan} {key val : Bytes} {valLen : Nat}

/-- An insert takes one slot and the bytes of its entry. -/
theorem checked_apply (ht : t.Checked sh) (hp : Planned sh t p key valLen) (hv : valLen ≤ val.length)
    (hkey : key.length ≤ sh.KEY_MAX) {rangeDel : Bool} (hval : rangeDel = false → valLen ≤ sh.VAL_MAX)
    (hstop : rangeDel = true → valLen ≤ sh.KEY_MAX) (seq : Nat) (tombstone : Bool) (expireAt : Nat) :
    (t.apply p key val seq tombstone rangeDel expireAt).Checked sh := by
  obtain ⟨hintact, hiter⟩ := iter_apply ht.intact hp hv seq tombstone rangeDel expireAt
  obtain ⟨rfl, hslot, hroom⟩ := hp
  have hbytes := ht.bytes
  have htake : (val.take valLen).length = valLen := by
    rw [List.length_take]
    omega
  have harena : (t.apply ⟨t.lowerBound key, t.arenaLen, key.length, t.arenaLen + key.length, valLen⟩ key val seq
      tombstone rangeDel expireAt).arena.length = t.arena.length + (key.length + valLen) := by
    simp only [apply, List.length_append, List.take_length, htake]
    omega
  refine ⟨hintact, ?_, ?_, ?_, ?_⟩
  · simp only [len, apply, List.length_append, List.length_cons, List.length_take, List.length_drop]
    unfold len at hslot
    omega
  · rw [harena]
    exact hroom
  · have hsplit : entryBytes t.iter = entryBytes (t.iter.take (t.lowerBound key)) +
        entryBytes (t.iter.drop (t.lowerBound key)) := by
      rw [← entryBytes_append, List.take_append_drop]
    rw [hiter, harena, entryBytes_append, entryBytes_cons]
    dsimp only
    omega
  · intro e he
    rw [hiter] at he
    rcases List.mem_append.mp he with he | he
    · exact ht.entry e (List.mem_of_mem_take he)
    rcases List.mem_cons.mp he with rfl | he
    · exact ⟨hkey, fun h => htake.trans_le (hval h), fun h => htake.trans_le (hstop h)⟩
    · exact ht.entry e (List.mem_of_mem_drop he)

/-- An insert plans first and applies the plan when it was accepted. -/
theorem planned_of_ok {x : Except Error Plan} {f : Plan → MemTable} (h : (x >>= fun p => pure (f p)) = Except.ok t') :
    ∃ p, x = .ok p ∧ t' = f p := by
  cases x with
  | error e => cases h
  | ok p => exact ⟨p, rfl, (Except.ok.inj h).symm⟩

/-- The value that goes to the arena is within its bound. -/
theorem plan_len_le {tombstone : Bool} (h : t.plan sh key val tombstone = .ok p) :
    (if tombstone then 0 else val.length) ≤ sh.VAL_MAX := by
  unfold plan at h
  generalize (if tombstone = true then 0 else val.length) = valLen at h ⊢
  dsimp only at h
  split_ifs at h
  omega

/-- A successful call keeps the sizes, whatever sequence number it passes. -/
theorem checked_change (ht : t.Checked sh) {c : Change} (h : c.run sh t = .ok t') : t'.Checked sh := by
  cases c with
  | insert key val seq tombstone =>
    obtain ⟨p, hp, rfl⟩ := planned_of_ok h
    obtain ⟨hplan, -, hkey⟩ := plan_ok hp
    refine checked_apply ht hplan ?_ hkey (fun _ => plan_len_le hp) ?_ seq tombstone 0
    · split <;> omega
    · intro hc
      cases hc
  | insertTtl key val seq expireAt =>
    obtain ⟨p, hp, rfl⟩ := planned_of_ok h
    obtain ⟨hplan, -, hkey⟩ := plan_ok hp
    refine checked_apply ht hplan le_rfl hkey (fun _ => plan_len_le hp) ?_ seq false expireAt
    intro hc
    cases hc
  | insertRangeDel start stop seq =>
    obtain ⟨p, hp, rfl⟩ := planned_of_ok h
    obtain ⟨hplan, -, -, hstart, hstop⟩ := planRangeDel_ok hp
    refine checked_apply ht hplan le_rfl hstart ?_ (fun _ => hstop) seq true 0
    intro hc
    cases hc
  | clear =>
    obtain rfl := Except.ok.inj h
    exact checked_clear t

/-- Whatever calls are made on a table, it stays within its sizes. -/
theorem checked_run (sh : Shape) (cs : List Change) : (run sh cs).1.Checked sh := by
  induction cs using List.reverseRecOn with
  | nil => exact checked_new sh
  | append_singleton cs c ih =>
    rw [run_concat, step]
    cases hc : c.run sh (run sh cs).1 with
    | error e => exact ih
    | ok t => exact checked_change ih hc

/-! ### The two sections of its table -/

/-- The bytes of the keys and values of points, and of the bounds of range tombstones. -/
def pointBytes (es : List SstEntry) : Nat := (es.map fun e => e.key.length + e.val.length).sum

def rdelBytes (rs : List RdelEntry) : Nat := (rs.map fun r => r.start.length + r.stop.length).sum

@[simp] theorem pointBytes_cons (e : SstEntry) (es : List SstEntry) :
    pointBytes (e :: es) = e.key.length + e.val.length + pointBytes es := by simp [pointBytes]

@[simp] theorem rdelBytes_cons (r : RdelEntry) (rs : List RdelEntry) :
    rdelBytes (r :: rs) = r.start.length + r.stop.length + rdelBytes rs := by simp [rdelBytes]

/-- Every entry goes to one of the two sections. -/
theorem sections (es : List Entry) :
    entryBytes es = pointBytes ((es.filter fun e => !e.rangeDel).map .ofEntry) +
        rdelBytes (es.filterMap fun e => if e.rangeDel then some ⟨e.key, e.val, e.seq⟩ else none) ∧
      es.length = ((es.filter fun e => !e.rangeDel).map SstEntry.ofEntry).length +
        (es.filterMap fun e => if e.rangeDel then some (⟨e.key, e.val, e.seq⟩ : RdelEntry) else none).length := by
  induction es with
  | nil => exact ⟨rfl, rfl⟩
  | cons e es ih =>
    obtain ⟨hbytes, hlen⟩ := ih
    rw [entryBytes_cons, hbytes, List.length_cons, hlen]
    cases hr : e.rangeDel with
    | true =>
      simp [hr]
      omega
    | false =>
      simp [hr, SstEntry.ofEntry]
      omega

theorem length_encodeEntries_le (es : List SstEntry) : (encodeEntries es).length ≤ pointBytes es + es.length * 21 := by
  induction es with
  | nil => exact le_rfl
  | cons e es ih =>
    have hwire : (wireVal e).length ≤ e.val.length := by
      unfold wireVal
      split <;> simp
    have hhead : ENTRY_HEADER = 13 := rfl
    have hlen := length_encodeEntry e
    have hone : (encodeEntry e).length ≤ e.key.length + e.val.length + 21 := by
      rw [hlen]
      split <;> omega
    rw [encodeEntries_cons, List.length_append, pointBytes_cons, List.length_cons]
    omega

theorem length_encodeRdels_eq (rs : List RdelEntry) : (encodeRdels rs).length = rdelBytes rs + rs.length * 12 := by
  induction rs with
  | nil => rfl
  | cons r rs ih =>
    have hlen := RdelWriter.length_encodeRdel r
    rw [rdelEntryLen] at hlen
    rw [encodeRdels, List.flatMap_cons, List.length_append, ← encodeRdels, ih, hlen, rdelBytes_cons, List.length_cons]
    omega

theorem length_le_pointBytes {es : List SstEntry} (h : ∀ e ∈ es, e.key ≠ []) : es.length ≤ pointBytes es := by
  induction es with
  | nil => exact le_rfl
  | cons e es ih =>
    have hpos := List.length_pos_iff.mpr (h e (by simp))
    have := ih fun x hx => h x (by simp [hx])
    rw [pointBytes_cons, List.length_cons]
    omega

theorem two_mul_length_le_rdelBytes {rs : List RdelEntry} (h : ∀ r ∈ rs, r.start ≠ [] ∧ r.stop ≠ []) :
    2 * rs.length ≤ rdelBytes rs := by
  induction rs with
  | nil => exact le_rfl
  | cons r rs ih =>
    obtain ⟨h1, h2⟩ := h r (by simp)
    have := List.length_pos_iff.mpr h1
    have := List.length_pos_iff.mpr h2
    have := ih fun x hx => h x (by simp [hx])
    rw [rdelBytes_cons, List.length_cons]
    omega

namespace Checked

theorem point_mem (h : t.Checked sh) {e : SstEntry} (he : e ∈ t.points) :
    ∃ x : Entry, x.Checked sh ∧ x.rangeDel = false ∧ e = .ofEntry x := by
  obtain ⟨x, hx, rfl⟩ := List.mem_map.mp he
  obtain ⟨hmem, hr⟩ := List.mem_filter.mp hx
  exact ⟨x, h.entry x hmem, by simpa using hr, rfl⟩

theorem rdel_mem (h : t.Checked sh) {r : RdelEntry} (hr : r ∈ t.rdels) :
    ∃ x : Entry, x.Checked sh ∧ x.rangeDel = true ∧ r = ⟨x.key, x.val, x.seq⟩ := by
  obtain ⟨x, hx, hsome⟩ := List.mem_filterMap.mp hr
  split at hsome
  · rename_i hdel
    exact ⟨x, h.entry x hx, hdel, (Option.some.inj hsome).symm⟩
  · cases hsome

theorem bytes_le (h : t.Checked sh) : pointBytes t.points + rdelBytes t.rdels ≤ sh.ARENA :=
  (sections t.iter).1 ▸ h.bytes.trans h.arena_le

theorem count_le (h : t.Checked sh) : t.points.length + t.rdels.length ≤ sh.CAP :=
  (sections t.iter).2 ▸ (length_iter t).trans_le h.len_le

/-- Every tombstone fits a block of its own. -/
theorem rdelOk (h : t.Checked sh) : ∀ r ∈ t.rdels, RdelOk sh r := by
  intro r hr
  obtain ⟨x, hx, hdel, rfl⟩ := h.rdel_mem hr
  have hstop := hx.stop_le hdel
  have hkey := hx.key_le
  have hk := sh.assertKey.2
  have hrdel := sh.assertRdel
  have hu : U16_MAX = 0xFFFF := rfl
  refine ⟨by show x.key.length ≤ _; omega, by show x.val.length ≤ _; omega, ?_⟩
  have hlen := RdelWriter.length_encodeRdel ⟨x.key, x.val, x.seq⟩
  rw [rdelEntryLen] at hlen
  dsimp only at hlen
  simp only [fitsRdel, encodeRdels, List.flatMap_nil, List.length_nil, decide_eq_true_iff, hlen, RDEL_TRAILER]
  omega

/-- Where every point fits a block of its own, the packing takes no more blocks than every slot has. -/
theorem blocks_le (h : t.Checked sh) (hfit : ∀ e ∈ t.points, fitsBlock sh [] e = true) :
    (rdelBins sh t.rdels).length + (dataBins sh t.points).length + 3 ≤ maxFlushBlocks sh := by
  have hbytes := h.bytes_le
  have hcount := h.count_le
  have hhead : ENTRY_HEADER = 13 := rfl
  refine length_bins_le_maxFlushBlocks ?_ hfit ?_ (fun r hr => (h.rdelOk r hr).fits_nil) (by omega) (by omega) ?_ ?_
  · intro e he
    obtain ⟨x, hx, hr, rfl⟩ := h.point_mem he
    have hkey : (SstEntry.ofEntry x).key.length ≤ sh.KEY_MAX := hx.key_le
    have hval := hx.val_le hr
    have hwire : (wireVal (.ofEntry x)).length ≤ x.val.length := by
      unfold wireVal SstEntry.ofEntry
      split <;> simp
    rw [length_encodeEntry]
    split <;> omega
  · intro r hr
    obtain ⟨x, hx, hdel, rfl⟩ := h.rdel_mem hr
    have hkey := hx.key_le
    have hstop := hx.stop_le hdel
    rw [RdelWriter.length_encodeRdel, rdelEntryLen]
    dsimp only
    omega
  · have hlen := length_encodeEntries_le t.points
    have hmul : t.points.length * 21 ≤ sh.CAP * 21 := Nat.mul_le_mul_right _ (by omega)
    rw [hhead]
    omega
  · have hlen := length_encodeRdels_eq t.rdels
    have hmul : t.rdels.length * 12 ≤ sh.CAP * 12 := Nat.mul_le_mul_right _ (by omega)
    omega

end Checked

/-- **Packing bound.**  Greedy packing takes at most `packedBlocksBound` blocks, and an accepted plan counts the blocks of
that packing.  So whatever calls filled a memtable, its tombstones can be planned, and an accepted plan of its points
leaves the two sections, the bloom filter, the index and the footer within `maxFlushBlocks`. -/
theorem packing_bound (sh : Shape) :
    (∀ (es : List SstEntry) (n emax total per : Nat), (∀ e ∈ es, fitsBlock sh [] e = true) → es.length ≤ n →
      (∀ e ∈ es, (encodeEntry e).length ≤ emax) → (es.map fun e => (encodeEntry e).length).sum ≤ total →
      0 < per → per ≤ MAX_ENTRIES_PER_BLOCK →
      (dataBins sh es).length ≤ packedBlocksBound total n emax (sh.BLOCK - MAX_DATA_TAIL) per) ∧
    (∀ es plan, planTable sh es = .ok plan →
      (∀ e ∈ es, fitsBlock sh [] e = true) ∧ plan.dataBlocks = (dataBins sh es).length) ∧
    ∀ cs : List Change, ∃ rdelPlan, planRdelBlocks sh (run sh cs).1.rdels = .ok rdelPlan ∧
      ∀ plan, planTable sh (run sh cs).1.points = .ok plan → plan.dataBlocks + rdelPlan.blocks + 3 ≤ maxFlushBlocks sh := by
  refine ⟨?_, fun es plan hplan => planTable_ok hplan, ?_⟩
  · intro es n emax total per hfit hn hmax htotal hpos hper
    -- A smaller cap on the entries of a block only adds blocks to the bound.
    have hfull : ∀ (b : List SstEntry) (e : SstEntry), fitsBlock sh b e = false →
        sh.BLOCK - MAX_DATA_TAIL < (b.map fun e => (encodeEntry e).length).sum + (encodeEntry e).length ∨
          per ≤ b.length := by
      intro b e h
      exact (full_of_not_fits h).imp id hper.trans
    have hbins : (dataBins sh es).length ≤ packedBlocksBound (es.map fun e => (encodeEntry e).length).sum es.length emax
        (sh.BLOCK - MAX_DATA_TAIL) per := length_bins_le_bound hpos hfull hmax hfit
    exact hbins.trans (packedBlocksBound_mono htotal hn _ _ _)
  · intro cs
    have hchecked := checked_run sh cs
    obtain ⟨rdelPlan, hrdel, hrblocks⟩ := planRdelBlocks_eq fun r hr => (hchecked.rdelOk r hr).fits_nil
    refine ⟨rdelPlan, hrdel, fun plan hplan => ?_⟩
    obtain ⟨hfit, hblocks⟩ := planTable_ok hplan
    have hle := hchecked.blocks_le hfit
    unfold rdelBins at hle
    omega

/-- One put and one range delete. -/
theorem packing_bound_put :
    (dataBins .small [⟨[1], [7], 1, false, 0⟩]).length ≤
      packedBlocksBound 20 1 20 (Shape.small.BLOCK - MAX_DATA_TAIL) MAX_ENTRIES_PER_BLOCK ∧
    ∃ plan rdelPlan,
      planTable .small (run .small [.insert [1] [7] 1 false, .insertRangeDel [1] [2] 2]).1.points = .ok plan ∧
      planRdelBlocks .small (run .small [.insert [1] [7] 1 false, .insertRangeDel [1] [2] 2]).1.rdels = .ok rdelPlan ∧
      plan.dataBlocks = 1 ∧ rdelPlan.blocks = 1 ∧ plan.dataBlocks + rdelPlan.blocks + 3 ≤ maxFlushBlocks .small := by
  obtain ⟨hpack, -, hrun⟩ := packing_bound .small
  constructor
  · exact hpack _ 1 20 20 _ (by decide) (by decide) (by decide) (by decide) (by decide) le_rfl
  · obtain ⟨rdelPlan, hrdel, hle⟩ := hrun [.insert [1] [7] 1 false, .insertRangeDel [1] [2] 2]
    have hblocks : rdelPlan.blocks = 1 := by
      have h : planRdelBlocks .small (run .small [.insert [1] [7] 1 false, .insertRangeDel [1] [2] 2]).1.rdels =
        .ok ⟨1, some [1], some [2], 2, 2⟩ := by decide
      obtain rfl := Except.ok.inj (hrdel.symm.trans h)
      rfl
    have hplan : planTable .small (run .small [.insert [1] [7] 1 false, .insertRangeDel [1] [2] 2]).1.points =
        .ok ⟨1, 1, 1, 1, [1], [1]⟩ := by decide
    exact ⟨_, rdelPlan, hplan, hrdel, rfl, hblocks, hle _ hplan⟩

end MemTable

end Horton
