import Horton.Lib.Newest
import Horton.MemTable

/-!
# The memtable as a list of versions

What the memtable is for: it holds every version written since it was last cleared, and answers reads from them.
`Refines` relates a table to these versions in the order they were written; `step_refines` carries it over one call,
successful or not, and `Refines.getAt`, `Refines.maxCoveringRdel`, `Refines.lowerBound` and `Refines.findRun` are the
reads.
-/

namespace Horton

/-- Keys ascending, and the newest version of a key first. -/
def Entry.Before (a b : Entry) : Prop := a.key < b.key ∨ a.key = b.key ∧ b.seq < a.seq

/-- The lookup that returns the entry. -/
def Entry.lookup (e : Entry) : Lookup := ⟨e.val, e.seq, e.tombstone, e.expireAt⟩

/-- A version of `key` that a read at `maxSeq` may observe. -/
def Entry.Version (key : Bytes) (maxSeq : Nat) (e : Entry) : Prop := e.rangeDel = false ∧ e.key = key ∧ e.seq ≤ maxSeq

/-- A range tombstone over `key` that a read at `maxSeq` may observe. -/
def Entry.Covers (key : Bytes) (maxSeq : Nat) (e : Entry) : Prop :=
  e.rangeDel = true ∧ e.seq ≤ maxSeq ∧ e.key ≤ key ∧ key < e.val

instance (key : Bytes) (maxSeq : Nat) (e : Entry) : Decidable (e.Covers key maxSeq) := by
  unfold Entry.Covers
  infer_instance

/-- The arena ranges of a slot, as offset and length. -/
def Slot.ranges (s : Slot) : List (Nat × Nat) := [(s.keyOff, s.keyLen), (s.valOff, s.valLen)]

/-- Two ranges without a common byte. -/
def Apart (r r' : Nat × Nat) : Prop := r.1 + r.2 ≤ r'.1 ∨ r'.1 + r'.2 ≤ r.1

namespace MemTable

/-! ### Calls -/

/-- The calls that change a table. -/
inductive Change
  | insert (key val : Bytes) (seq : Nat) (tombstone : Bool)
  | insertTtl (key val : Bytes) (seq expireAt : Nat)
  | insertRangeDel (start stop : Bytes) (seq : Nat)
  | clear

/-- The sequence number that the owner passes. -/
def Change.seq? : Change → Option Nat
  | .insert _ _ seq _ => some seq
  | .insertTtl _ _ seq _ => some seq
  | .insertRangeDel _ _ seq => some seq
  | .clear => none

variable (sh : Shape)

def Change.run (t : MemTable) : Change → Except Error MemTable
  | .insert key val seq tombstone => t.insert sh key val seq tombstone
  | .insertTtl key val seq expireAt => t.insertTtl sh key val seq expireAt
  | .insertRangeDel start stop seq => t.insertRangeDel sh start stop seq
  | .clear => .ok t.clear

/-- The versions after a successful call, oldest first. -/
def Change.record (h : List Entry) : Change → List Entry
  | .insert key val seq tombstone => h ++ [⟨key, if tombstone then [] else val, seq, tombstone, false, 0⟩]
  | .insertTtl key val seq expireAt => h ++ [⟨key, val, seq, false, false, expireAt⟩]
  | .insertRangeDel start stop seq => h ++ [⟨start, stop, seq, true, true, 0⟩]
  | .clear => []

/-- One call on the table and on its versions; an error leaves both as they are. -/
def step (s : MemTable × List Entry) (c : Change) : MemTable × List Entry :=
  match c.run sh s.1 with
  | .ok t => (t, c.record s.2)
  | .error _ => s

def run (cs : List Change) : MemTable × List Entry := cs.foldl (step sh) (new, [])

/-! ### The binary search -/

/-- What `binary_search_by` may return on ascending keys: any slot of the run, or the insertion point. -/
def SearchResult (t : MemTable) (key : Bytes) : Except Nat Nat → Prop
  | .ok pos => ∃ s, t.slots[pos]? = some s ∧ t.slotKey s = key
  | .error pos => pos ≤ t.slots.length ∧ (∀ s ∈ t.slots.take pos, t.slotKey s < key) ∧
      ∀ s ∈ t.slots.drop pos, key < t.slotKey s

/-- The walk of `find_run` from the slot found back to the first of the run. -/
def walkBack (t : MemTable) (key : Bytes) : Nat → Nat
  | 0 => 0
  | pos + 1 =>
    match t.slots[pos]? with
    | some s => if t.slotKey s = key then walkBack t key pos else pos + 1
    | none => pos + 1

/-! ### The relation -/

/-- The table holds exactly the versions `h`, sorted, each in bytes of its own. -/
structure Refines (t : MemTable) (h : List Entry) : Prop where
  perm : t.iter.Perm h
  sorted : t.iter.Pairwise Entry.Before
  oldest : h.Pairwise fun a b => a.seq < b.seq
  intact : t.Intact
  apart : (t.slots.flatMap Slot.ranges).Pairwise Apart
  len_le : t.len ≤ sh.CAP
  arena_le : t.arenaLen ≤ sh.ARENA
  maxSeq : ∀ e ∈ h, e.seq ≤ t.maxSeq

variable {sh} {t : MemTable} {h : List Entry} {key : Bytes} {maxSeq : Nat}

theorem refines_new : Refines sh new [] where
  perm := List.Perm.refl _
  sorted := List.Pairwise.nil
  oldest := List.Pairwise.nil
  intact := intact_new
  apart := List.Pairwise.nil
  len_le := Nat.zero_le _
  arena_le := Nat.zero_le _
  maxSeq := by simp

/-! ### Where a key belongs -/

theorem lowerBound_eq (t : MemTable) (key : Bytes) :
    t.lowerBound key = t.slots.findIdx fun s => decide (key ≤ t.slotKey s) := by
  unfold lowerBound findRun
  dsimp only
  split <;> rename_i heq
  · split at heq
    · split_ifs at heq
      exact (Except.ok.inj heq).symm
    · cases heq
  · split at heq
    · split_ifs at heq
      exact (Except.error.inj heq).symm
    · exact (Except.error.inj heq).symm

theorem lowerBound_le (t : MemTable) (key : Bytes) : t.lowerBound key ≤ t.slots.length := by
  rw [lowerBound_eq]
  exact List.findIdx_le_length

theorem key_lt_of_take {e : Entry} (he : e ∈ t.iter.take (t.lowerBound key)) : e.key < key := by
  obtain ⟨i, hi, hget⟩ := List.mem_take_iff_getElem.mp he
  rw [lowerBound_eq] at hi
  have hlt : i < t.slots.findIdx fun s => decide (key ≤ t.slotKey s) := by omega
  have hnot := List.not_of_lt_findIdx hlt
  rw [decide_eq_false_iff_not, not_le] at hnot
  subst hget
  simp only [iter, List.getElem_map]
  exact hnot

theorem key_le_of_drop (hs : t.iter.Pairwise Entry.Before) {e : Entry} (he : e ∈ t.iter.drop (t.lowerBound key)) :
    key ≤ e.key := by
  have hlt : t.lowerBound key < t.slots.length := by
    by_contra hge
    rw [List.drop_of_length_le (by rw [length_iter]; omega)] at he
    simp at he
  have hhead : key ≤ (t.entryOf t.slots[t.lowerBound key]).key := by
    have := @List.findIdx_getElem _ (fun s => decide (key ≤ t.slotKey s)) t.slots
      (by rw [← lowerBound_eq]; exact hlt)
    simp only [← lowerBound_eq, decide_eq_true_eq] at this
    exact this
  have hdrop : t.iter.drop (t.lowerBound key) =
      t.entryOf t.slots[t.lowerBound key] :: t.iter.drop (t.lowerBound key + 1) := by
    rw [List.drop_eq_getElem_cons (by rw [length_iter]; exact hlt)]
    simp only [iter, List.getElem_map]
  have hpair : (t.iter.drop (t.lowerBound key)).Pairwise Entry.Before := hs.sublist (List.drop_sublist _ _)
  rw [hdrop] at he hpair
  rcases List.mem_cons.mp he with rfl | he
  · exact hhead
  · rcases (List.pairwise_cons.mp hpair).1 e he with hbefore | ⟨heq, -⟩
    · exact le_of_lt (lt_of_le_of_lt hhead hbefore)
    · exact heq ▸ hhead

/-! ### One call -/

theorem apart_comm {r r' : Nat × Nat} (h : Apart r r') : Apart r' r := h.symm

theorem apart_apply (ht : t.Intact) (hs : (t.slots.flatMap Slot.ranges).Pairwise Apart) {p : Plan} {valLen : Nat}
    (hp : Planned sh t p key valLen) (val : Bytes) (seq : Nat) (tombstone rangeDel : Bool) (expireAt : Nat) :
    ((t.apply p key val seq tombstone rangeDel expireAt).slots.flatMap Slot.ranges).Pairwise Apart := by
  obtain ⟨rfl, -, -⟩ := hp
  have hold : ∀ r ∈ t.slots.flatMap Slot.ranges, r.1 + r.2 ≤ t.arenaLen := by
    intro r hr
    obtain ⟨s, hs, hr⟩ := List.mem_flatMap.mp hr
    obtain ⟨hkey, hval⟩ := ht s hs
    simp only [Slot.ranges, List.mem_cons, List.not_mem_nil, or_false] at hr
    rcases hr with rfl | rfl
    · exact hkey
    · exact hval
  have hperm : ((t.apply ⟨t.lowerBound key, t.arenaLen, key.length, t.arenaLen + key.length, valLen⟩ key val seq tombstone
      rangeDel expireAt).slots.flatMap Slot.ranges).Perm
      ((t.arenaLen, key.length) :: (t.arenaLen + key.length, valLen) :: t.slots.flatMap Slot.ranges) := by
    have hmid := @List.perm_middle _ (⟨t.arenaLen, key.length, t.arenaLen + key.length, valLen, seq, tombstone, rangeDel,
      expireAt⟩ : Slot) (t.slots.take (t.lowerBound key)) (t.slots.drop (t.lowerBound key))
    rw [List.take_append_drop] at hmid
    exact hmid.flatMap_right Slot.ranges
  refine (hperm.pairwise_iff apart_comm).mpr ?_
  refine List.pairwise_cons.mpr ⟨?_, List.pairwise_cons.mpr ⟨?_, hs⟩⟩
  · intro r hr
    rcases List.mem_cons.mp hr with rfl | hr
    · exact .inl le_rfl
    · exact .inr (hold r hr)
  · intro r hr
    exact .inr ((hold r hr).trans (Nat.le_add_right _ _))

theorem apply_refines (hr : Refines sh t h) {p : Plan} {valLen : Nat} (hp : Planned sh t p key valLen)
    {val : Bytes} (hv : valLen ≤ val.length) {seq : Nat} (hseq : ∀ e ∈ h, e.seq < seq)
    (tombstone rangeDel : Bool) (expireAt : Nat) :
    Refines sh (t.apply p key val seq tombstone rangeDel expireAt)
      (h ++ [⟨key, val.take valLen, seq, tombstone, rangeDel, expireAt⟩]) := by
  obtain ⟨hintact, hiter⟩ := iter_apply hr.intact hp hv seq tombstone rangeDel expireAt
  have hperm : (t.apply p key val seq tombstone rangeDel expireAt).iter.Perm
      (⟨key, val.take valLen, seq, tombstone, rangeDel, expireAt⟩ :: t.iter) := by
    rw [hiter]
    refine List.perm_middle.trans ?_
    rw [List.take_append_drop]
  have hmem : ∀ e ∈ t.iter, e.seq < seq := fun e he => hseq e (hr.perm.mem_iff.mp he)
  have happly := apart_apply hr.intact hr.apart hp val seq tombstone rangeDel expireAt
  obtain ⟨hpeq, hslot, hroom⟩ := hp
  constructor
  · exact (hperm.trans (hr.perm.cons _)).trans (List.perm_append_singleton _ _).symm
  · rw [hiter]
    have hboth := hr.sorted
    rw [← List.take_append_drop (t.lowerBound key) t.iter, List.pairwise_append] at hboth
    obtain ⟨htake, hdrop, hcross⟩ := hboth
    refine List.pairwise_append.mpr ⟨htake, List.pairwise_cons.mpr ⟨?_, hdrop⟩, ?_⟩
    · intro e he
      rcases lt_or_eq_of_le (key_le_of_drop hr.sorted he) with hlt | heq
      · exact .inl hlt
      · exact .inr ⟨heq, hmem e (List.mem_of_mem_drop he)⟩
    · intro a ha b hb
      rcases List.mem_cons.mp hb with rfl | hb
      · exact .inl (key_lt_of_take ha)
      · exact hcross a ha b hb
  · refine List.pairwise_append.mpr ⟨hr.oldest, List.pairwise_singleton _ _, ?_⟩
    intro a ha b hb
    rw [List.mem_singleton.mp hb]
    exact hseq a ha
  · exact hintact
  · exact happly
  · rw [len, ← length_iter, hperm.length_eq, List.length_cons, length_iter]
    exact hslot
  · rw [hpeq]
    simp only [apply, arenaLen, List.length_append, List.length_take]
    unfold arenaLen at hroom
    omega
  · intro e he
    have hmax : t.maxSeq ≤ (t.apply p key val seq tombstone rangeDel expireAt).maxSeq ∧
        seq ≤ (t.apply p key val seq tombstone rangeDel expireAt).maxSeq := by
      simp only [apply]
      split_ifs <;> omega
    rcases List.mem_append.mp he with he | he
    · exact (hr.maxSeq e he).trans hmax.1
    · rw [List.mem_singleton.mp he]
      exact hmax.2

/-- A call with a fresh sequence number keeps the relation; a failing call changes neither side. -/
theorem step_refines (hr : Refines sh t h) {c : Change} (hseq : ∀ seq ∈ c.seq?, ∀ e ∈ h, e.seq < seq) :
    Refines sh (step sh (t, h) c).1 (step sh (t, h) c).2 := by
  unfold step
  cases c with
  | insert key val seq tombstone =>
    have hfresh := hseq seq rfl
    simp only [Change.run, MemTable.insert]
    cases hplan : t.plan sh key val tombstone with
    | error e => exact hr
    | ok p =>
      have hval : (if tombstone then 0 else val.length) ≤ val.length := by split_ifs <;> omega
      have happly := apply_refines hr (plan_ok hplan).1 hval hfresh tombstone false 0
      cases tombstone with
      | true => simpa [Change.record] using happly
      | false => simpa [Change.record] using happly
  | insertTtl key val seq expireAt =>
    have hfresh := hseq seq rfl
    simp only [Change.run, insertTtl]
    cases hplan : t.plan sh key val false with
    | error e => exact hr
    | ok p =>
      have hval : (if false then 0 else val.length) ≤ val.length := by simp
      simpa [Change.record] using apply_refines hr (plan_ok hplan).1 hval hfresh false false expireAt
  | insertRangeDel start stop seq =>
    have hfresh := hseq seq rfl
    simp only [Change.run, insertRangeDel]
    cases hplan : t.planRangeDel sh start stop with
    | error e => exact hr
    | ok p => simpa [Change.record] using apply_refines hr (planRangeDel_ok hplan).1 (le_refl stop.length) hfresh true true 0
  | clear => exact refines_new

theorem step_seq {s : MemTable × List Entry} {c : Change} {e : Entry} (he : e ∈ (step sh s c).2) :
    e ∈ s.2 ∨ e.seq ∈ c.seq? := by
  unfold step at he
  split at he
  · cases c with
    | clear => simp [Change.record] at he
    | _ =>
      rcases List.mem_append.mp he with he | he
      · exact .inl he
      · rw [List.mem_singleton.mp he]
        exact .inr rfl
  · exact .inl he

theorem run_concat (cs : List Change) (c : Change) : run sh (cs ++ [c]) = step sh (run sh cs) c := by
  rw [run, List.foldl_append]
  rfl

theorem run_refines {cs : List Change} (hs : (cs.filterMap Change.seq?).Pairwise (· < ·)) :
    Refines sh (run sh cs).1 (run sh cs).2 ∧ ∀ e ∈ (run sh cs).2, e.seq ∈ cs.filterMap Change.seq? := by
  induction cs using List.reverseRecOn with
  | nil => exact ⟨refines_new, by simp [run]⟩
  | append_singleton cs c ih =>
    rw [List.filterMap_append, List.pairwise_append] at hs
    obtain ⟨hcs, -, hcross⟩ := hs
    obtain ⟨hr, hmem⟩ := ih hcs
    rw [run_concat]
    constructor
    · refine step_refines hr ?_
      intro seq hseq e he
      exact hcross _ (hmem e he) seq (by rw [List.mem_filterMap]; exact ⟨c, by simp, hseq⟩)
    · intro e he
      rw [List.filterMap_append, List.mem_append]
      rcases step_seq he with he | he
      · exact .inl (hmem e he)
      · exact .inr (by rw [List.mem_filterMap]; exact ⟨c, by simp, he⟩)

/-! ### Reads -/

/-- `get_at` walks from the place of the key, whether it is there or not. -/
theorem getAt_eq (t : MemTable) (key : Bytes) (maxSeq : Nat) :
    t.getAt key maxSeq = t.walkRun key maxSeq (t.slots.drop (t.lowerBound key)) := by
  unfold getAt lowerBound findRun
  dsimp only
  cases hget : t.slots[t.slots.findIdx fun s => decide (key ≤ t.slotKey s)]? with
  | none =>
    dsimp only
    rw [List.drop_of_length_le (List.getElem?_eq_none_iff.mp hget)]
    rfl
  | some s =>
    dsimp only
    obtain ⟨hlt, hs⟩ := List.getElem?_eq_some_iff.mp hget
    by_cases hkey : t.slotKey s = key
    · rw [if_pos hkey]
    · rw [if_neg hkey]
      dsimp only
      rw [List.drop_eq_getElem_cons hlt, walkRun, hs, if_pos hkey]

/-- In a sorted part that starts at `key` or behind it the walk ends at the newest version. -/
theorem walkRun_spec {l : List Slot} (hs : (l.map t.entryOf).Pairwise Entry.Before) (hle : ∀ s ∈ l, key ≤ t.slotKey s)
    (r : Lookup) : t.walkRun key maxSeq l = some r ↔
      ∃ e, Newest Entry.seq (Entry.Version key maxSeq) (l.map t.entryOf) e ∧ r = e.lookup := by
  induction l with
  | nil => simp [walkRun, Newest]
  | cons s l ih =>
    rw [List.map_cons, List.pairwise_cons] at hs
    obtain ⟨hhead, htail⟩ := hs
    have hnext := ih htail fun x hx => hle x (by simp [hx])
    have hskip (hnot : ¬(t.entryOf s).Version key maxSeq) :
        (∃ e, Newest Entry.seq (Entry.Version key maxSeq) ((s :: l).map t.entryOf) e ∧ r = e.lookup) ↔
          ∃ e, Newest Entry.seq (Entry.Version key maxSeq) (l.map t.entryOf) e ∧ r = e.lookup := by
      simp only [List.map_cons, Newest.cons_of_not hnot]
    rw [walkRun]
    by_cases hkey : t.slotKey s = key
    swap
    · -- Behind the run every key is greater.
      have hgt : ∀ e ∈ (s :: l).map t.entryOf, key < e.key := by
        have hs : key < t.slotKey s := lt_of_le_of_ne (hle s (by simp)) (Ne.symm hkey)
        intro e he
        rcases List.mem_cons.mp he with rfl | he
        · exact hs
        · rcases hhead e he with hlt | ⟨heq, -⟩
          · exact lt_trans hs hlt
          · exact heq ▸ hs
      rw [if_pos hkey]
      constructor
      · intro h
        cases h
      · rintro ⟨e, he, -⟩
        exact absurd he.2.1.2.1 (ne_of_gt (hgt e he.1))
    rw [if_neg (not_not.mpr hkey)]
    by_cases hrdel : s.rangeDel = true
    · rw [if_pos hrdel, hskip (fun h => Bool.false_ne_true (h.1.symm.trans hrdel))]
      exact hnext
    rw [if_neg hrdel]
    by_cases hseq : s.seq ≤ maxSeq
    · have hversion : (t.entryOf s).Version key maxSeq := ⟨by simpa [entryOf] using hrdel, hkey, hseq⟩
      have hnewest : ∀ b ∈ l.map t.entryOf, b.Version key maxSeq → b.seq < (t.entryOf s).seq := by
        intro b hb hv
        rcases hhead b hb with hlt | ⟨-, hlt⟩
        · rw [hv.2.1] at hlt
          exact absurd (hkey ▸ hlt) (lt_irrefl key)
        · exact hlt
      rw [if_pos hseq]
      simp only [List.map_cons, Newest.head hversion hnewest, exists_eq_left]
      constructor
      · intro h
        exact (Option.some.inj h).symm
      · rintro rfl
        rfl
    · rw [if_neg hseq, hskip (fun h => hseq h.2.2)]
      exact hnext

theorem Refines.getAt (hr : Refines sh t h) (r : Lookup) : t.getAt key maxSeq = some r ↔
    ∃ e, Newest Entry.seq (Entry.Version key maxSeq) h e ∧ r = e.lookup := by
  have hdrop : t.iter.drop (t.lowerBound key) = (t.slots.drop (t.lowerBound key)).map t.entryOf := by
    rw [iter, List.map_drop]
  have hsorted : ((t.slots.drop (t.lowerBound key)).map t.entryOf).Pairwise Entry.Before := by
    rw [← hdrop]
    exact hr.sorted.sublist (List.drop_sublist _ _)
  have hle : ∀ s ∈ t.slots.drop (t.lowerBound key), key ≤ t.slotKey s := fun s hs =>
    key_le_of_drop hr.sorted (e := t.entryOf s) (by rw [hdrop]; exact List.mem_map_of_mem hs)
  have hbefore : ∀ e ∈ t.iter.take (t.lowerBound key), ¬e.Version key maxSeq := fun e he hv =>
    absurd hv.2.1 (ne_of_lt (key_lt_of_take he))
  rw [getAt_eq, walkRun_spec hsorted hle, ← hdrop]
  simp only [← Newest.perm hr.perm]
  conv_rhs => rw [← List.take_append_drop (t.lowerBound key) t.iter]
  simp only [Newest.append_of_not hbefore]

theorem maxCoveringRdel_eq (t : MemTable) (key : Bytes) (maxSeq : Nat) :
    t.maxCoveringRdel key maxSeq = newestStamp Entry.seq (fun e => decide (e.Covers key maxSeq)) t.iter := by
  unfold maxCoveringRdel newestStamp iter
  rw [List.foldl_map]
  congr 1
  funext best s
  by_cases hskip : s.rangeDel = true ∧ s.seq ≤ maxSeq
  · obtain ⟨hrdel, hseq⟩ := hskip
    rw [if_neg (by simp [hrdel, hseq])]
    by_cases hin : t.slotKey s ≤ key ∧ key < t.slotVal s ∧ ∀ b ∈ best, s.seq > b
    · rw [if_pos hin, if_pos ⟨decide_eq_true ⟨hrdel, hseq, hin.1, hin.2.1⟩, hin.2.2⟩]
      rfl
    · rw [if_neg hin, if_neg]
      rintro ⟨hcov, hbest⟩
      have hcov := of_decide_eq_true hcov
      exact hin ⟨hcov.2.2.1, hcov.2.2.2, hbest⟩
  · rw [if_pos (by simp only [Bool.or_eq_true, Bool.not_eq_true', decide_eq_true_eq]; grind), if_neg]
    rintro ⟨hcov, -⟩
    have hcov := of_decide_eq_true hcov
    exact hskip ⟨hcov.1, hcov.2.1⟩

theorem Refines.maxCoveringRdel (hr : Refines sh t h) (m : Nat) : t.maxCoveringRdel key maxSeq = some m ↔
    ∃ e, Newest Entry.seq (Entry.Covers key maxSeq) h e ∧ e.seq = m := by
  rw [maxCoveringRdel_eq, newestStamp_eq_some]
  simp only [decide_eq_true_eq, Newest.perm hr.perm]

theorem Refines.lowerBound (hr : Refines sh t h) (key : Bytes) : t.lowerBound key ≤ t.iter.length ∧
    (∀ e ∈ t.iter.take (t.lowerBound key), e.key < key) ∧ ∀ e ∈ t.iter.drop (t.lowerBound key), key ≤ e.key :=
  ⟨by rw [length_iter]; exact lowerBound_le t key, fun _ he => key_lt_of_take he, fun _ he => key_le_of_drop hr.sorted he⟩

theorem findRun_eq (t : MemTable) (key : Bytes) : t.findRun key =
    match t.slots[t.lowerBound key]? with
    | some s => if t.slotKey s = key then .ok (t.lowerBound key) else .error (t.lowerBound key)
    | none => .error (t.lowerBound key) := by
  rw [lowerBound_eq]
  rfl

/-- The lower bound from its two sides. -/
theorem lowerBound_of_split {pos : Nat} (hle : pos ≤ t.slots.length) (hbelow : ∀ s ∈ t.slots.take pos, t.slotKey s < key)
    (habove : ∀ s, t.slots[pos]? = some s → key ≤ t.slotKey s) : t.lowerBound key = pos := by
  have hfalse : ∀ j, (hj : j < pos) → decide (key ≤ t.slotKey t.slots[j]) = false := by
    intro j hj
    rw [decide_eq_false_iff_not, not_le]
    exact hbelow _ (List.mem_take_iff_getElem.mpr ⟨j, by omega, rfl⟩)
  rw [lowerBound_eq]
  rcases Nat.lt_or_eq_of_le hle with hlt | heq
  · rw [List.findIdx_eq hlt]
    exact ⟨decide_eq_true (habove _ (List.getElem?_eq_getElem hlt)), fun j hj => hfalse j hj⟩
  · subst heq
    rw [List.findIdx_eq_length]
    intro s hs
    obtain ⟨j, hj, rfl⟩ := List.mem_iff_getElem.mp hs
    exact hfalse j hj

theorem Refines.slots_sorted (hr : Refines sh t h) : t.slots.Pairwise fun s s' => t.slotKey s ≤ t.slotKey s' := by
  have hs := hr.sorted
  rw [iter, List.pairwise_map] at hs
  refine hs.imp ?_
  rintro s s' (hlt | ⟨heq, -⟩)
  · exact le_of_lt hlt
  · exact le_of_eq heq

/-- The walk stays in the run. -/
theorem walkBack_key {pos : Nat} {s : Slot} (hpos : t.slots[pos]? = some s) (hkey : t.slotKey s = key) :
    ∃ s', t.slots[t.walkBack key pos]? = some s' ∧ t.slotKey s' = key := by
  induction pos generalizing s with
  | zero => exact ⟨s, hpos, hkey⟩
  | succ pos ih =>
    have hlt := (List.getElem?_eq_some_iff.mp hpos).1
    have hprev : t.slots[pos]? = some t.slots[pos] := List.getElem?_eq_getElem (by omega)
    rw [MemTable.walkBack, hprev]
    dsimp only
    by_cases hsame : t.slotKey t.slots[pos] = key
    · rw [if_pos hsame]
      exact ih hprev hsame
    · rw [if_neg hsame]
      exact ⟨s, hpos, hkey⟩

/-- From any slot of the run the walk reaches its first one. -/
theorem Refines.walkBack (hr : Refines sh t h) {pos : Nat} {s : Slot} (hpos : t.slots[pos]? = some s)
    (hkey : t.slotKey s = key) : t.walkBack key pos = t.lowerBound key := by
  induction pos generalizing s with
  | zero =>
    refine (lowerBound_of_split (Nat.zero_le _) (by simp) ?_).symm
    intro s' hs'
    rw [hpos] at hs'
    obtain rfl := Option.some.inj hs'
    exact hkey.ge
  | succ pos ih =>
    obtain ⟨hlt, hs⟩ := List.getElem?_eq_some_iff.mp hpos
    have hprev : t.slots[pos]? = some t.slots[pos] := List.getElem?_eq_getElem (by omega)
    rw [MemTable.walkBack, hprev]
    dsimp only
    by_cases hsame : t.slotKey t.slots[pos] = key
    · rw [if_pos hsame]
      exact ih hprev hsame
    · rw [if_neg hsame]
      have hstep : t.slotKey t.slots[pos] < key := by
        refine lt_of_le_of_ne ?_ hsame
        rw [← hkey, ← hs]
        exact List.pairwise_iff_getElem.mp hr.slots_sorted pos (pos + 1) (by omega) hlt (by omega)
      refine (lowerBound_of_split (by omega) ?_ ?_).symm
      · intro x hx
        obtain ⟨j, hj, rfl⟩ := List.mem_take_iff_getElem.mp hx
        rcases Nat.lt_or_ge j pos with hjp | hjp
        · exact lt_of_le_of_lt (List.pairwise_iff_getElem.mp hr.slots_sorted j pos (by omega) (by omega) hjp) hstep
        · obtain rfl : j = pos := by omega
          exact hstep
      · intro x hx
        rw [hpos] at hx
        obtain rfl := Option.some.inj hx
        exact hkey.ge

/-- Wherever in the run the binary search lands, `find_run` returns the same. -/
theorem Refines.findRun (hr : Refines sh t h) {r : Except Nat Nat} (hsearch : t.SearchResult key r) :
    r.map (t.walkBack key) = t.findRun key := by
  rw [findRun_eq]
  cases r with
  | ok pos =>
    obtain ⟨s, hpos, hkey⟩ := hsearch
    obtain ⟨s', hget, hkey'⟩ := walkBack_key hpos hkey
    rw [hr.walkBack hpos hkey] at hget
    rw [hget]
    dsimp only
    rw [if_pos hkey', Except.map, hr.walkBack hpos hkey]
  | error pos =>
    obtain ⟨hle, hbelow, habove⟩ := hsearch
    have hpos : t.lowerBound key = pos := by
      refine lowerBound_of_split hle hbelow ?_
      intro s hs
      exact le_of_lt (habove s (List.mem_drop_iff_getElem.mpr ⟨0, by simpa using List.getElem?_eq_some_iff.mp hs⟩))
    rw [hpos]
    cases hs : t.slots[pos]? with
    | none => rfl
    | some s =>
      have hlt := habove s (List.mem_drop_iff_getElem.mpr ⟨0, by simpa using List.getElem?_eq_some_iff.mp hs⟩)
      dsimp only
      rw [if_neg (ne_of_gt hlt)]
      rfl

/-- After any calls with increasing sequence numbers the table holds the versions written since the last clear, sorted and
in disjoint bytes; point reads, range tombstone probes, bounds and searches answer from these versions; and a call that
fails changes nothing. -/
theorem run_reads (sh : Shape) (cs : List Change) (hs : (cs.filterMap Change.seq?).Pairwise (· < ·)) :
    Refines sh (run sh cs).1 (run sh cs).2 ∧
    (∀ key maxSeq r, (run sh cs).1.getAt key maxSeq = some r ↔
      ∃ e, Newest Entry.seq (Entry.Version key maxSeq) (run sh cs).2 e ∧ r = e.lookup) ∧
    (∀ key maxSeq m, (run sh cs).1.maxCoveringRdel key maxSeq = some m ↔
      ∃ e, Newest Entry.seq (Entry.Covers key maxSeq) (run sh cs).2 e ∧ e.seq = m) ∧
    (∀ key, (run sh cs).1.lowerBound key ≤ (run sh cs).1.iter.length ∧
      (∀ e ∈ (run sh cs).1.iter.take ((run sh cs).1.lowerBound key), e.key < key) ∧
      ∀ e ∈ (run sh cs).1.iter.drop ((run sh cs).1.lowerBound key), key ≤ e.key) ∧
    (∀ key r, (run sh cs).1.SearchResult key r → r.map ((run sh cs).1.walkBack key) = (run sh cs).1.findRun key) ∧
    ∀ c e, c.run sh (run sh cs).1 = .error e → run sh (cs ++ [c]) = run sh cs := by
  have hr := (@run_refines sh cs hs).1
  refine ⟨hr, fun _ _ => hr.getAt, fun _ _ => hr.maxCoveringRdel, hr.lowerBound, fun _ _ => hr.findRun, ?_⟩
  intro c e hc
  rw [run_concat, step, hc]

/-- Two versions of a key and a range tombstone that starts at it, then a key that is refused. -/
def overwritten : List Change :=
  [.insert [1] [10] 1 false, .insertRangeDel [1] [3] 2, .insertTtl [1] [11] 3 9, .insert [] [0] 4 false]

theorem run_reads_overwritten : (run Shape.small overwritten).1.iter.map (fun e => (e.key, e.seq)) =
      [([1], 3), ([1], 2), ([1], 1)] ∧
    Refines Shape.small (run Shape.small overwritten).1 (run Shape.small overwritten).2 ∧
    ∃ e, Newest Entry.seq (Entry.Version [1] 2) (run Shape.small overwritten).2 e ∧ (⟨[10], 1, false, 0⟩ : Lookup) = e.lookup :=
  ⟨by decide +kernel, (run_reads Shape.small overwritten (by decide)).1,
    ((run_reads Shape.small overwritten (by decide)).2.1 [1] 2 _).mp (by decide +kernel)⟩

end MemTable

end Horton
