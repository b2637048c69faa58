import Horton.Db.Reached
import Horton.Store.Table

/-!
# Where tables lie

Every table has a slot of the region for itself, so a new table in a free slot leaves the others as they are.  `open` finds
the slots again, and marks those of the tables (`rebuildSlots_ok`).
-/

namespace Horton

open BlockDev Sstable

variable {sh : Shape} {blocks blocks' : Nat → Bytes} {c : Contents} {t : TableRef} {ts ts' : List TableRef}

/-! ### The blocks of a table -/

/-- Block `j` is one of the table's. -/
def TableRef.Has (t : TableRef) (j : Nat) : Prop := t.firstBlock ≤ j ∧ j < t.firstBlock + t.blockCount

/-- Only the blocks of the table matter. -/
theorem Contents.On.keeps (h : c.On sh blocks t) (hk : ∀ j, t.Has j → blocks' j = blocks j) : c.On sh blocks' t := by
  obtain ⟨k, bs, bins, minSeq, hon, hk0, hk1, hmin, hrdels, hbins, hcount, hblocks, hend, hpoints, htombs⟩ := h.stored
  have hrun : ∀ i, i < t.blockCount → blocks' (t.firstBlock + i) = blocks (t.firstBlock + i) :=
    fun i hi => hk _ ⟨Nat.le_add_right _ _, by omega⟩
  refine { h with stored := ⟨k, bs, bins, minSeq, ?_, hk0, hk1, hmin, ?_, hbins, hcount, hblocks, hend, hpoints, htombs⟩ }
  · refine ⟨hon.block, hon.ids, hon.fits, fun i b hi => ?_, ?_, ?_, ?_⟩
    · have hlt := (List.getElem?_eq_some_iff.mp hi).1
      rw [hrun i (by omega)]
      exact hon.data i b hi
    · have := hrun (bs.length + bins.length) (by omega)
      rw [← Nat.add_assoc] at this
      rw [this]
      exact hon.bloom
    · have := hrun (bs.length + bins.length + 1) (by omega)
      rw [← Nat.add_assoc, ← Nat.add_assoc] at this
      rw [this]
      exact hon.index
    · have := hrun (bs.length + bins.length + 2) (by omega)
      rw [← Nat.add_assoc, ← Nat.add_assoc] at this
      rw [this]
      exact hon.footer
  · refine ⟨hrdels.block, hrdels.ids, fun i b hi => ?_⟩
    have hlt := (List.getElem?_eq_some_iff.mp hi).1
    have := hrun (bs.length + i) (by omega)
    rw [← Nat.add_assoc] at this
    rw [this]
    exact hrdels.sealed i b hi

/-! ### Slots -/

theorem bit_or_two_pow (mask : Nat) {i j : Nat} (hi : i < 64) :
    bit (mask ||| 2 ^ i) j = true ↔ bit mask j = true ∨ j = i := by
  unfold bit
  rw [Nat.testBit_or, Nat.testBit_two_pow]
  simp only [Bool.and_eq_true, decide_eq_true_eq, Bool.or_eq_true]
  constructor
  · rintro ⟨h, hm | heq⟩
    · exact Or.inl ⟨h, hm⟩
    · exact Or.inr heq.symm
  · rintro (⟨h, hm⟩ | rfl)
    · exact ⟨h, Or.inl hm⟩
    · exact ⟨hi, Or.inr rfl⟩

namespace SlotMap

variable {s s' : SlotMap} {first n slot : Nat}

/-- The slot of a table. -/
def slotOfTable (s : SlotMap) (t : TableRef) : Option Nat := s.slotOf t.firstBlock t.blockCount

theorem slotOf_eq_some (h : s.slotOf first n = some slot) :
    slot < s.slots ∧ s.slotBase slot ≤ first ∧ first + n ≤ s.slotBase slot + s.slotBlocks := by
  unfold slotOf at h
  split at h
  · cases h
  rename_i hin
  dsimp only at h
  split at h
  · cases h
  rename_i hslot
  split at h
  · rename_i hend
    obtain rfl := Option.some.inj h
    have hdiv := Nat.div_mul_le_self (first - s.base) s.slotBlocks
    rw [Nat.succ_mul] at hend
    refine ⟨by omega, ?_, ?_⟩
    · unfold slotBase
      omega
    · unfold slotBase
      omega
  · cases h

theorem slotOf_slotBase (hslot : slot < s.slots) (hn : 0 < n) (hle : n ≤ s.slotBlocks)
    (hend : s.slotBase slot + n ≤ U64_MAX) :
    s.slotOf (s.slotBase slot) n = some slot := by
  have hdiv : (s.slotBase slot - s.base) / s.slotBlocks = slot := by
    unfold slotBase
    rw [Nat.add_sub_cancel_left, Nat.mul_div_cancel _ (by omega)]
  have hbase : s.base ≤ s.slotBase slot := Nat.le_add_right _ _
  have hnext : s.base + (slot + 1) * s.slotBlocks = s.slotBase slot + s.slotBlocks := by
    unfold slotBase
    rw [Nat.succ_mul, Nat.add_assoc]
  unfold slotOf
  rw [if_neg (by omega)]
  dsimp only
  rw [hdiv, if_neg (by omega), hnext, if_pos ⟨hend, by omega⟩]

theorem SameLayout.slotOfTable (h : s.SameLayout s') (t : TableRef) : s'.slotOfTable t = s.slotOfTable t := by
  unfold SlotMap.slotOfTable slotOf
  rw [h.1, h.2.1, h.2.2]

/-- Every table has a slot for itself. -/
structure Places (s : SlotMap) (ts : List TableRef) : Prop where
  inside : ∀ t ∈ ts, ∃ slot, s.slotOfTable t = some slot
  apart : ts.Pairwise fun a b => s.slotOfTable a ≠ s.slotOfTable b

/-- The slots of the tables are in use. -/
def Marks (s : SlotMap) (ts : List TableRef) : Prop := ∀ t ∈ ts, ∀ slot, s.slotOfTable t = some slot → bit s.used slot = true

theorem Places.same (h : s.Places ts) (hs : s.SameLayout s') : s'.Places ts := by
  constructor
  · intro t ht
    rw [hs.slotOfTable]
    exact h.inside t ht
  · simp only [hs.slotOfTable]
    exact h.apart

theorem Places.perm (h : s.Places ts) (hp : ts.Perm ts') : s.Places ts' :=
  ⟨fun t ht => h.inside t (hp.mem_iff.mpr ht), (hp.pairwise_iff fun hab => hab.symm).mp h.apart⟩

theorem Places.nil (s : SlotMap) : s.Places [] := ⟨fun t ht => absurd ht (by simp), .nil⟩

/-- One more table, in a slot that no other has. -/
theorem Places.cons (h : s.Places ts) (ht : s.slotOfTable t = some slot) (hnew : ∀ a ∈ ts, s.slotOfTable a ≠ some slot) :
    s.Places (t :: ts) := by
  constructor
  · intro a ha
    rcases List.mem_cons.mp ha with rfl | ha
    · exact ⟨slot, ht⟩
    · exact h.inside a ha
  · refine List.pairwise_cons.mpr ⟨fun a ha heq => ?_, h.apart⟩
    exact hnew a ha (heq ▸ ht)

theorem Marks.perm (h : s.Marks ts) (hp : ts.Perm ts') : s.Marks ts' := fun t ht => h t (hp.mem_iff.mpr ht)

/-- Different slots have no common block. -/
theorem slotBase_apart {i j a b : Nat} (h : i ≠ j) (ha : s.slotBase i ≤ a ∧ a < s.slotBase i + s.slotBlocks)
    (hb : s.slotBase j ≤ b ∧ b < s.slotBase j + s.slotBlocks) : a ≠ b := by
  unfold slotBase at ha hb
  rintro rfl
  rcases Nat.lt_or_gt_of_ne h with hlt | hlt
  · have := Nat.mul_le_mul_right s.slotBlocks hlt
    rw [Nat.succ_mul] at this
    omega
  · have := Nat.mul_le_mul_right s.slotBlocks hlt
    rw [Nat.succ_mul] at this
    omega

/-- The blocks of a slot are not those of tables in other slots. -/
theorem Places.outside (h : s.Places ts) (hnew : ∀ a ∈ ts, s.slotOfTable a ≠ some slot) {j : Nat}
    (hj : s.slotBase slot ≤ j ∧ j < s.slotBase slot + s.slotBlocks) : ∀ a ∈ ts, ¬a.Has j := by
  rintro a ha ⟨h1, h2⟩
  obtain ⟨i, hi⟩ := h.inside a ha
  obtain ⟨-, h3, h4⟩ := slotOf_eq_some hi
  have hne : i ≠ slot := fun heq => hnew a ha (heq ▸ hi)
  exact slotBase_apart hne ⟨by omega, by omega⟩ hj rfl

theorem Marks.free (h : s.Marks ts) (hf : s.findFree = some slot) : ∀ a ∈ ts, s.slotOfTable a ≠ some slot := by
  intro a ha heq
  have hused := h a ha slot heq
  have hfree := findFree_free hf
  simp only [bit, Nat.testBit_or, Bool.and_eq_true, Bool.and_eq_false_iff, Bool.or_eq_false_iff] at hused hfree
  rcases hfree with hfree | hfree
  · rw [hused.1] at hfree
    cases hfree
  · rw [hused.2] at hfree
    cases hfree.1

theorem Marks.claim (h : s.Marks ts) (hn : s.slots ≤ 64) (hslot : slot < s.slots) (ht : s.slotOfTable t = some slot) :
    (s.claim slot).Marks (t :: ts) := by
  intro a ha i hi
  rw [(sameLayout_claim s slot).slotOfTable] at hi
  unfold SlotMap.claim
  rw [if_pos hslot]
  refine (bit_or_two_pow s.used (by omega)).mpr ?_
  rcases List.mem_cons.mp ha with rfl | ha
  · exact Or.inr (Option.some.inj (hi.symm.trans ht))
  · exact Or.inl (h a ha i hi)

end SlotMap

namespace Db

variable {s s' : SlotMap}

/-- The loop over the tables marks their slots. -/
theorem markTables_ok (hn : s.slots ≤ 64) (h : s.Places ts)
    (hfree : ∀ t ∈ ts, ∀ slot, s.slotOfTable t = some slot → bit s.used slot = false) (newest : Option (Nat × Nat)) :
    ∃ s' newest', markTables ts s newest = .ok (s', newest') ∧ s.SameLayout s' ∧ s'.Marks ts ∧
      ∀ slot, bit s.used slot = true → bit s'.used slot = true := by
  induction ts generalizing s newest with
  | nil => exact ⟨s, newest, rfl, ⟨rfl, rfl, rfl⟩, fun t ht => absurd ht (by simp), fun _ hs => hs⟩
  | cons t ts ih =>
    obtain ⟨slot, hslot⟩ := h.inside t List.mem_cons_self
    have hlt := (SlotMap.slotOf_eq_some hslot).1
    have hmark : s.markUsed slot = some { s with used := s.used ||| 2 ^ slot } := by
      unfold SlotMap.markUsed
      rw [if_neg]
      rw [not_or]
      exact ⟨by omega, by rw [hfree t List.mem_cons_self slot hslot]; simp⟩
    have hsame := SlotMap.sameLayout_markUsed hmark
    have hused := fun j => bit_or_two_pow s.used (i := slot) (j := j) (by omega)
    obtain ⟨hne, hpair⟩ := List.pairwise_cons.mp h.apart
    have hplaces : SlotMap.Places { s with used := s.used ||| 2 ^ slot } ts :=
      SlotMap.Places.same ⟨fun a ha => h.inside a (List.mem_cons_of_mem _ ha), hpair⟩ hsame
    obtain ⟨s', newest', hrun, hlay, hmarks, hkeep⟩ := ih (s := { s with used := s.used ||| 2 ^ slot }) hn hplaces
      (by
        intro a ha i hi
        rw [hsame.slotOfTable] at hi
        have hold := hfree a (List.mem_cons_of_mem _ ha) i hi
        have hother : i ≠ slot := fun heq => hne a ha (by rw [hslot, hi, heq])
        cases hb : bit (s.used ||| 2 ^ slot) i with
        | false => rfl
        | true =>
          rcases (hused i).mp hb with hb | hb
          · rw [hold] at hb
            cases hb
          · exact absurd hb hother)
      (if newest.all (t.id > ·.1) then some (t.id, slot) else newest)
    refine ⟨s', newest', ?_, hsame.trans hlay, fun a ha i hi => ?_, fun i hi => hkeep i ((hused i).mpr (Or.inl hi))⟩
    · unfold SlotMap.slotOfTable at hslot
      rw [markTables, hslot]
      show (((s.markUsed slot).elim (.error .corruptManifest) .ok : Except Error SlotMap) >>= fun s₁ =>
        markTables ts s₁ (if newest.all (t.id > ·.1) then some (t.id, slot) else newest)) = _
      rw [hmark]
      exact hrun
    · rcases List.mem_cons.mp ha with rfl | ha
      · have hi' : s.slotOfTable a = some i := by
          rw [← hsame.slotOfTable, ← hlay.slotOfTable]
          exact hi
        exact hkeep i ((hused i).mpr (Or.inr (Option.some.inj (hi'.symm.trans hslot))))
      · exact hmarks a ha i hi

/-- `open` finds the slots of tables that have each one for themselves. -/
theorem rebuildSlots_ok {m : Manifest} (hn : s.slots ≤ 64) (hused : s.used = 0) (h : s.Places m.tables) :
    ∃ s', rebuildSlots m s = .ok s' ∧ s'.Marks m.tables := by
  obtain ⟨s', newest, hrun, -, hmarks, -⟩ := markTables_ok hn h (by simp [hused, bit]) none
  unfold rebuildSlots
  rw [hrun]
  refine ⟨_, rfl, ?_⟩
  cases newest with
  | none => exact hmarks
  | some x =>
    intro a ha i hi
    have hsame := SlotMap.sameLayout_setHintAfter s' x.2
    have hbits : (s'.setHintAfter x.2).used = s'.used := by
      unfold SlotMap.setHintAfter
      split <;> rfl
    change (s'.setHintAfter x.2).slotOfTable a = some i at hi
    rw [hsame.slotOfTable] at hi
    show bit (s'.setHintAfter x.2).used i = true
    rw [hbits]
    exact hmarks a ha i hi

end Db

/-! ### The tables behind an edit -/

namespace Manifest

variable {m : Manifest} {e : ManifestEdit}

/-- An edit that neither removes nor changes tables passes them over, and puts the added one last. -/
private theorem viewFrom_low (hr : e.removed = 0) (hw : e.narrowed = 0) (hs : e.stamped = none) (pos : Nat)
    (ts : List TableRef) (pending : Option TableRef) : viewFrom e 0 pos ts pending = ts ++ pending.toList := by
  induction ts generalizing pos with
  | nil => rfl
  | cons t ts ih =>
    have hbit : bit e.removed pos = false := by simp [hr, bit]
    have hview : viewRef e pos t = t := by
      unfold viewRef
      simp [hw, hs, bit]
    rw [viewFrom, if_neg (by simp [hbit]), hview]
    cases pending with
    | none => exact congrArg (t :: ·) (ih (pos + 1))
    | some a =>
      dsimp only
      rw [if_neg (by simp)]
      exact congrArg (t :: ·) (ih (pos + 1))

private theorem viewFrom_deep (hr : e.removed = 0) (hw : e.narrowed = 0) (hs : e.stamped = none) (li pos : Nat)
    (ts : List TableRef) : viewFrom e li pos ts none = ts := by
  induction ts generalizing pos with
  | nil => rfl
  | cons t ts ih =>
    have hbit : bit e.removed pos = false := by simp [hr, bit]
    have hview : viewRef e pos t = t := by
      unfold viewRef
      simp [hw, hs, bit]
    rw [viewFrom, if_neg (by simp [hbit]), hview]
    exact congrArg (t :: ·) (ih (pos + 1))

/-- The tables behind an edit that adds at most one table, at level 0. -/
theorem tables_view (hm : m.levels.length = sh.LEVELS) (hr : e.removed = 0) (hw : e.narrowed = 0) (hs : e.stamped = none)
    (ha : ∀ x ∈ e.added, x.1 = 0) : (m.view sh e).tables.Perm ((e.added.map Prod.snd).toList ++ m.tables) := by
  obtain ⟨n, hn⟩ : ∃ n, sh.LEVELS = n + 1 := ⟨sh.LEVELS - 1, by have := sh.assertSlots.1; omega⟩
  have hall : m.tables = (List.range sh.LEVELS).flatMap m.level := by
    unfold tables
    rw [List.flatMap_def, ← hm]
    congr 1
    apply List.ext_getElem
    · simp
    · intro i h1 h2
      simp [level, List.getD_eq_getElem?_getD, h1]
  have hzero : m.viewLevel e 0 = m.level 0 ++ (e.added.map Prod.snd).toList := by
    unfold viewLevel
    rw [viewFrom_low hr hw hs]
    cases hadd : e.added with
    | none => rfl
    | some x =>
      have hlevel : x.1 = 0 := ha x hadd
      simp [Option.filter, hlevel]
  have hdeep : ∀ li, 0 < li → m.viewLevel e li = m.level li := by
    intro li hli
    unfold viewLevel
    have hnone : (e.added.filter (·.1 = li)).map (·.2) = none := by
      cases hadd : e.added with
      | none => rfl
      | some x =>
        have := ha x hadd
        simp [Option.filter, this, hli.ne]
    rw [hnone]
    exact viewFrom_deep hr hw hs li _ _
  have hrest : (List.range n).flatMap (fun li => m.viewLevel e (li + 1)) =
      (List.range n).flatMap fun li => m.level (li + 1) := by
    congr 1
    funext li
    exact hdeep (li + 1) (Nat.succ_pos li)
  rw [hall]
  unfold tables view
  rw [← List.flatMap_def, hn, List.range_succ_eq_map, List.flatMap_cons, List.flatMap_cons, List.flatMap_map,
    List.flatMap_map, hzero]
  show (m.level 0 ++ _ ++ (List.range n).flatMap fun li => m.viewLevel e (li + 1)).Perm
    (_ ++ (m.level 0 ++ (List.range n).flatMap fun li => m.level (li + 1)))
  rw [hrest, ← List.append_assoc]
  exact List.perm_append_comm.append_right _

end Manifest

end Horton
