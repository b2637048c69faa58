import Horton.Db.Basic

/-!
# The layout of a whole device

`resolveLayout` puts the manifest copies, the log and the table slots one behind the other.  The log gets its share of
what the manifest leaves, and the slots are as long as the rest allows; so a device is accepted from the number of blocks
on at which that length reaches `MIN_SLOT_BLOCKS`, which is what the search behind `MIN_DEVICE_BLOCKS` finds
(`minSpace_le_iff`).
-/

namespace Horton

namespace Config

/-! ### The smallest device -/

/-- The blocks that the log leaves of `space`. -/
def tableSpace (space : Nat) : Nat := space - walShare space

/-- The loop of `MIN_DEVICE_BLOCKS`, from `space` on. -/
def searchSpace (need : Nat) : Nat → Nat → Nat
  | 0, space => space
  | fuel + 1, space => if tableSpace space < need then searchSpace need fuel (space + 1) else space

/-- The log takes two blocks or an eighth, so the loop has ended at twice the need. -/
def minSpace (need : Nat) : Nat := searchSpace need (need + 2) need

/-- The smallest device, in blocks, for the default manifest pair. -/
def MIN_DEVICE_BLOCKS (sh : Shape) : Nat := 2 * Manifest.maxBlocks sh + minSpace (SLOTS sh * MIN_SLOT_BLOCKS sh)

theorem tableSpace_succ (space : Nat) : tableSpace space ≤ tableSpace (space + 1) := by
  unfold tableSpace walShare
  split_ifs <;> omega

theorem tableSpace_mono : Monotone tableSpace := monotone_nat_of_le_succ tableSpace_succ

/-- The search ends at the first space from `space` on that leaves enough, when there is one within its fuel. -/
theorem searchSpace_spec {need : Nat} (fuel : Nat) {space : Nat} (h : need ≤ tableSpace (space + fuel)) :
    need ≤ tableSpace (searchSpace need fuel space) ∧
      ∀ s, space ≤ s → s < searchSpace need fuel space → tableSpace s < need := by
  induction fuel generalizing space with
  | zero => exact ⟨h, fun s hle hlt => absurd hlt (not_lt.mpr hle)⟩
  | succ fuel ih =>
    rw [searchSpace]
    by_cases hs : tableSpace space < need
    · rw [if_pos hs]
      have hnext : need ≤ tableSpace (space + 1 + fuel) := by rwa [Nat.add_right_comm]
      obtain ⟨henough, hleast⟩ := ih hnext
      refine ⟨henough, fun s hle hlt => ?_⟩
      by_cases heq : s = space
      · rw [heq]
        exact hs
      · exact hleast s (by omega) hlt
    · rw [if_neg hs]
      exact ⟨not_lt.mp hs, fun s hle hlt => absurd hlt (not_lt.mpr hle)⟩

/-- The search finds the threshold. -/
theorem minSpace_le_iff {need : Nat} (space : Nat) : minSpace need ≤ space ↔ need ≤ tableSpace space := by
  have hfuel : need ≤ tableSpace (need + (need + 2)) := by
    unfold tableSpace walShare
    split_ifs <;> omega
  obtain ⟨henough, hleast⟩ := searchSpace_spec (need + 2) hfuel
  constructor
  · intro hle
    exact henough.trans (tableSpace_mono hle)
  · intro hneed
    by_contra hlt
    have hself : tableSpace space ≤ space := Nat.sub_le _ _
    exact absurd (hleast space (hneed.trans hself) (not_le.mp hlt)) (not_lt.mpr hneed)

/-! ### What is accepted -/

/-- What `open` asks of a resolved configuration: its regions are disjoint, and the slots of the table region are `m`. -/
def Accepted (sh : Shape) (c : Config) (m : SlotMap) : Prop :=
  c.checkRegions sh = .ok () ∧ SlotMap.layout c.tblStart c.tblEnd (SLOTS sh) (MIN_SLOT_BLOCKS sh) = some m

/-- The manifest copies, the log and the table slots, as first and last block (exclusive). -/
def extents (sh : Shape) (c : Config) (m : SlotMap) : List (Nat × Nat) :=
  (List.range c.manifestLayout.copies).map (fun k => (c.manifestLayout.copyStart k (Manifest.maxBlocks sh),
      c.manifestLayout.copyStart k (Manifest.maxBlocks sh) + Manifest.maxBlocks sh)) ++
    (c.walStart, c.walEnd) :: (List.range m.slots).map fun i => (m.slotBase i, m.slotBase i + m.slotBlocks)

/-- A whole device with the manifest pair, or with a ring of so many copies. -/
def onWhole (n : Nat) : Option UInt32 → Config
  | none => wholeDevice n
  | some copies => (wholeDevice n).withManifestRing copies.toNat

variable {sh : Shape} {n stride copies : Nat} {c : Config}

/-- The places of the regions on a device of `n` blocks whose first `copies * stride` blocks are the manifest. -/
structure Placed (sh : Shape) (n copies slot : Nat) (c : Config) : Prop where
  copies_eq : c.manifestLayout.copies = copies
  copyStart_eq : ∀ k < copies, c.manifestLayout.copyStart k (Manifest.maxBlocks sh) = k * Manifest.maxBlocks sh
  walStart_eq : c.walStart = Manifest.maxBlocks sh * copies
  walEnd_eq : c.walEnd = n - slot * SLOTS sh
  tblStart_eq : c.tblStart = n - slot * SLOTS sh
  tblEnd_eq : c.tblEnd = n

/-- The number of copies of a ring; without one the manifest is a pair. -/
def ringCopies (ring : Nat) : Nat := if ring = 0 then 2 else ring

theorem resolveLayout_whole (hn : n ≠ 0) (ring : Nat) : resolveLayout sh ⟨0, 0, 0, 0, 0, 0, ring, n, 0⟩ =
    ⟨Manifest.maxBlocks sh * ringCopies ring,
      n - tableSpace (n - Manifest.maxBlocks sh * ringCopies ring) / SLOTS sh * SLOTS sh,
      n - tableSpace (n - Manifest.maxBlocks sh * ringCopies ring) / SLOTS sh * SLOTS sh, n, 0,
      if ring = 0 then Manifest.maxBlocks sh else 0, ring, n, 0⟩ :=
  if_neg hn

theorem placed_whole (hn : n ≠ 0) {ring : Nat} (hring : ring ≠ 1) :
    Placed sh n (ringCopies ring) (tableSpace (n - Manifest.maxBlocks sh * ringCopies ring) / SLOTS sh)
      (resolveLayout sh ⟨0, 0, 0, 0, 0, 0, ring, n, 0⟩) := by
  rw [resolveLayout_whole hn]
  generalize tableSpace (n - Manifest.maxBlocks sh * ringCopies ring) / SLOTS sh = slot
  unfold ringCopies
  by_cases h0 : ring = 0
  · subst h0
    refine ⟨rfl, fun k hk => ?_, rfl, rfl, rfl, rfl⟩
    -- Of the pair only copies 0 and 1 are asked for.
    rw [if_pos rfl] at hk
    obtain rfl | rfl : k = 0 ∨ k = 1 := by omega
    · simp [manifestLayout, ManifestLayout.pair, ManifestLayout.copyStart]
    · simp [manifestLayout, ManifestLayout.pair, ManifestLayout.copyStart]
  · rw [if_neg h0, if_neg h0]
    have hlayout : ∀ c : Config, c.manifestA = 0 → c.manifestRing = ring → c.manifestLayout = .ringOf 0 ring := by
      intro c ha hr
      rw [manifestLayout, hr, ha, if_neg h0]
    have hfield : (ManifestLayout.ringOf 0 ring).ring = ring := if_neg (by omega)
    refine ⟨?_, fun k hk => ?_, rfl, rfl, rfl, rfl⟩
    · rw [hlayout _ rfl rfl, ManifestLayout.copies, hfield, if_neg h0]
    · rw [hlayout _ rfl rfl, ManifestLayout.copyStart, hfield, if_neg h0, Nat.mod_eq_of_lt hk]
      exact Nat.zero_add _

namespace Placed

variable {slot : Nat} {m : SlotMap}

/-- The slots of a region of whole slots are as long as the layout says. -/
theorem layout_iff (h : Placed sh n copies slot c) (hslot : slot * SLOTS sh ≤ n) :
    SlotMap.layout c.tblStart c.tblEnd (SLOTS sh) (MIN_SLOT_BLOCKS sh) = some m ↔
      0 < slot ∧ MIN_SLOT_BLOCKS sh ≤ slot ∧ m = ⟨n - slot * SLOTS sh, slot, SLOTS sh, 0, 0, 0⟩ := by
  have hslots : 0 < SLOTS sh := Nat.mul_pos sh.assertSlots.1 sh.assertSlots.2.1
  have hmax : SLOTS sh ≤ 64 := sh.assertSlots.2.2
  have hlen : n - (n - slot * SLOTS sh) = slot * SLOTS sh := by omega
  rw [h.tblStart_eq, h.tblEnd_eq]
  unfold SlotMap.layout SlotMap.MAX_SLOTS
  by_cases hpos : 0 < slot
  · have hregion : 0 < slot * SLOTS sh := Nat.mul_pos hpos hslots
    rw [if_neg (by omega), hlen, Nat.mul_div_cancel _ hslots]
    dsimp only
    by_cases hmin : MIN_SLOT_BLOCKS sh ≤ slot
    · rw [if_neg (by omega)]
      constructor
      · intro hm
        exact ⟨hpos, hmin, (Option.some.inj hm).symm⟩
      · rintro ⟨-, -, rfl⟩
        rfl
    · rw [if_pos (by omega)]
      constructor
      · intro hm
        cases hm
      · intro hm
        exact absurd hm.2.1 hmin
  · obtain rfl : slot = 0 := by omega
    rw [if_pos (by omega)]
    constructor
    · intro hm
      cases hm
    · intro hm
      exact absurd hm.1 hpos

/-- Where the copies, the log and the slots stand one behind the other, the regions are accepted. -/
theorem checkRegions_ok (h : Placed sh n copies slot c) (hn : n ≤ U64_MAX)
    (hwal : copies * Manifest.maxBlocks sh < n - slot * SLOTS sh) (htbl : 0 < slot * SLOTS sh) :
    c.checkRegions sh = .ok () := by
  unfold checkRegions
  dsimp only
  rw [h.copies_eq, h.walStart_eq, h.walEnd_eq, h.tblStart_eq, h.tblEnd_eq, if_neg, if_neg]
  · rw [List.any_eq_true]
    rintro ⟨k, hk, hbad⟩
    rw [List.mem_range] at hk
    -- Copy `k` ends in front of the log, and behind every earlier copy.
    have hend : k * Manifest.maxBlocks sh + Manifest.maxBlocks sh ≤ copies * Manifest.maxBlocks sh := by
      rw [← Nat.succ_mul]
      exact Nat.mul_le_mul_right _ hk
    have hearlier : ∀ j < k, j * Manifest.maxBlocks sh + Manifest.maxBlocks sh ≤ k * Manifest.maxBlocks sh := by
      intro j hj
      rw [← Nat.succ_mul]
      exact Nat.mul_le_mul_right _ hj
    have hplace := h.copyStart_eq k hk
    simp only [Bool.or_eq_true, decide_eq_true_eq, Bool.not_eq_true', disjoint, Bool.or_eq_false_iff,
      decide_eq_false_iff_not, List.any_eq_true, List.mem_range] at hbad
    rw [Nat.mul_comm copies] at hend hwal
    rcases hbad with ((hbad | hbad) | hbad) | ⟨j, hj, hbad⟩
    · omega
    · omega
    · omega
    · have hplace' := h.copyStart_eq j (hj.trans hk)
      have := hearlier j hj
      omega
  · simp only [disjoint, Bool.not_eq_true', Bool.or_eq_false_iff, decide_eq_false_iff_not]
    rw [Nat.mul_comm copies] at hwal
    omega

/-- Every extent ends where the next one may start, and none is beyond the device. -/
theorem extents_spec (h : Placed sh n copies slot c) (hslot : slot * SLOTS sh ≤ n)
    (hwal : copies * Manifest.maxBlocks sh ≤ n - slot * SLOTS sh) :
    (extents sh c ⟨n - slot * SLOTS sh, slot, SLOTS sh, 0, 0, 0⟩).Pairwise (fun a b => a.2 ≤ b.1) ∧
      ∀ r ∈ extents sh c ⟨n - slot * SLOTS sh, slot, SLOTS sh, 0, 0, 0⟩, r.2 ≤ n := by
  have hstep : ∀ {i j : Nat} (len : Nat), i < j → i * len + len ≤ j * len := by
    intro i j len hij
    rw [← Nat.succ_mul]
    exact Nat.mul_le_mul_right _ hij
  have hcopy : ∀ r ∈ (List.range copies).map (fun k => (c.manifestLayout.copyStart k (Manifest.maxBlocks sh),
      c.manifestLayout.copyStart k (Manifest.maxBlocks sh) + Manifest.maxBlocks sh)),
      r.2 ≤ copies * Manifest.maxBlocks sh := by
    intro r hr
    obtain ⟨k, hk, rfl⟩ := List.mem_map.mp hr
    rw [List.mem_range] at hk
    dsimp only
    rw [h.copyStart_eq k hk]
    exact hstep _ hk
  have hslots : ∀ r ∈ (List.range (SLOTS sh)).map (fun i => (n - slot * SLOTS sh + i * slot,
      n - slot * SLOTS sh + i * slot + slot)), n - slot * SLOTS sh ≤ r.1 ∧ r.2 ≤ n := by
    intro r hr
    obtain ⟨i, hi, rfl⟩ := List.mem_map.mp hr
    have hlast := hstep slot (List.mem_range.mp hi)
    rw [Nat.mul_comm (SLOTS sh) slot] at hlast
    dsimp only
    omega
  unfold extents
  rw [h.copies_eq, h.walStart_eq, h.walEnd_eq]
  constructor
  · rw [List.pairwise_append]
    refine ⟨?_, List.pairwise_cons.mpr ⟨fun r hr => (hslots r hr).1, ?_⟩, ?_⟩
    · rw [List.pairwise_map]
      refine List.Pairwise.imp_of_mem ?_ List.pairwise_lt_range
      intro j k hj hk hjk
      rw [h.copyStart_eq j (List.mem_range.mp hj), h.copyStart_eq k (List.mem_range.mp hk)]
      exact hstep _ hjk
    · rw [List.pairwise_map]
      refine List.pairwise_lt_range.imp ?_
      intro i j hij
      have := hstep slot hij
      show n - slot * SLOTS sh + i * slot + slot ≤ n - slot * SLOTS sh + j * slot
      omega
    · intro a ha b hb
      have hend := hcopy a ha
      rcases List.mem_cons.mp hb with rfl | hb
      · rw [Nat.mul_comm]
        exact hend
      · exact hend.trans (hwal.trans (hslots b hb).1)
  · intro r hr
    rcases List.mem_append.mp hr with hr | hr
    · exact (hcopy r hr).trans (hwal.trans (Nat.sub_le _ _))
    rcases List.mem_cons.mp hr with rfl | hr
    · exact Nat.sub_le _ _
    · exact (hslots r hr).2

end Placed

/-- A slot is long enough exactly where the manifest leaves the smallest space. -/
theorem min_slot_le_iff (sh : Shape) (n copies : Nat) :
    MIN_SLOT_BLOCKS sh ≤ tableSpace (n - Manifest.maxBlocks sh * copies) / SLOTS sh ↔
      Manifest.maxBlocks sh * copies + minSpace (SLOTS sh * MIN_SLOT_BLOCKS sh) ≤ n := by
  have hslots : 0 < SLOTS sh := Nat.mul_pos sh.assertSlots.1 sh.assertSlots.2.1
  have hmin : 0 < MIN_SLOT_BLOCKS sh := Nat.succ_pos _
  have hpos : ¬ minSpace (SLOTS sh * MIN_SLOT_BLOCKS sh) ≤ 0 := by
    rw [minSpace_le_iff]
    exact not_le.mpr (Nat.mul_pos hslots hmin)
  rw [Nat.le_div_iff_mul_le hslots, Nat.mul_comm, ← minSpace_le_iff]
  omega

/-- What is left to the log and the slots is enough for both. -/
private theorem slots_room {space slot : Nat} (hpos : 0 < slot) (h : slot * SLOTS sh ≤ tableSpace space) :
    slot * SLOTS sh + 2 ≤ space := by
  have hslots : 0 < slot * SLOTS sh := Nat.mul_pos hpos (Nat.mul_pos sh.assertSlots.1 sh.assertSlots.2.1)
  unfold tableSpace walShare at h
  split_ifs at h <;> omega

/-- A resolved configuration is accepted from the smallest device on, with extents one behind the other. -/
theorem accepted_whole (hmax : n ≤ U64_MAX) {ring : Nat} (hring : ring ≠ 1) :
    ((∃ m, (resolveLayout sh ⟨0, 0, 0, 0, 0, 0, ring, n, 0⟩).Accepted sh m) ↔
      Manifest.maxBlocks sh * ringCopies ring + minSpace (SLOTS sh * MIN_SLOT_BLOCKS sh) ≤ n) ∧
    ∀ m, (resolveLayout sh ⟨0, 0, 0, 0, 0, 0, ring, n, 0⟩).Accepted sh m →
      (extents sh (resolveLayout sh ⟨0, 0, 0, 0, 0, 0, ring, n, 0⟩) m).Pairwise (fun a b => a.2 ≤ b.1) ∧
        ∀ r ∈ extents sh (resolveLayout sh ⟨0, 0, 0, 0, 0, 0, ring, n, 0⟩) m, r.2 ≤ n := by
  have hmin : 0 < MIN_SLOT_BLOCKS sh := Nat.succ_pos _
  rw [← min_slot_le_iff]
  by_cases hn : n = 0
  · -- A device of no blocks is taken as a hand-placed configuration, all of whose regions are empty.
    subst hn
    have hrefused : ∀ m, ¬ (resolveLayout sh ⟨0, 0, 0, 0, 0, 0, ring, 0, 0⟩).Accepted sh m := by
      rintro m ⟨-, hm⟩
      have hnone : SlotMap.layout 0 0 (SLOTS sh) (MIN_SLOT_BLOCKS sh) = none := if_pos (.inr (.inr le_rfl))
      exact absurd (hnone.symm.trans hm) (by simp)
    refine ⟨⟨fun ⟨m, hm⟩ => absurd hm (hrefused m), fun hle => ?_⟩, fun m hm => absurd hm (hrefused m)⟩
    have hzero : tableSpace (0 - Manifest.maxBlocks sh * ringCopies ring) = 0 := by
      rw [Nat.zero_sub]
      rfl
    rw [hzero, Nat.zero_div] at hle
    omega
  · have hplaced := @placed_whole sh n hn ring hring
    generalize resolveLayout sh ⟨0, 0, 0, 0, 0, 0, ring, n, 0⟩ = c at hplaced ⊢
    have htable : tableSpace (n - Manifest.maxBlocks sh * ringCopies ring) / SLOTS sh * SLOTS sh ≤
        tableSpace (n - Manifest.maxBlocks sh * ringCopies ring) := Nat.div_mul_le_self _ _
    have hself : tableSpace (n - Manifest.maxBlocks sh * ringCopies ring) ≤ n - Manifest.maxBlocks sh * ringCopies ring :=
      Nat.sub_le _ _
    generalize tableSpace (n - Manifest.maxBlocks sh * ringCopies ring) / SLOTS sh = slot at hplaced htable ⊢
    have hslot : slot * SLOTS sh ≤ n := by omega
    constructor
    · constructor
      · rintro ⟨m, -, hm⟩
        exact ((hplaced.layout_iff hslot).mp hm).2.1
      · intro hle
        have hpos : 0 < slot := hmin.trans_le hle
        have hroom := slots_room hpos htable
        have hregion : 0 < slot * SLOTS sh := Nat.mul_pos hpos (Nat.mul_pos sh.assertSlots.1 sh.assertSlots.2.1)
        rw [Nat.mul_comm] at hroom
        refine ⟨_, hplaced.checkRegions_ok hmax ?_ hregion, (hplaced.layout_iff hslot).mpr ⟨hpos, hle, rfl⟩⟩
        rw [Nat.mul_comm (ringCopies ring)]
        rw [Nat.mul_comm] at hroom
        omega
    · rintro m ⟨-, hm⟩
      obtain ⟨hpos, -, rfl⟩ := (hplaced.layout_iff hslot).mp hm
      have hroom := slots_room hpos htable
      refine hplaced.extents_spec hslot ?_
      rw [Nat.mul_comm (ringCopies ring)]
      omega

/-- **Whole-device layout.**  A device of `n` blocks is accepted from `MIN_DEVICE_BLOCKS` on, and with a ring from that
many more blocks on as the further copies take; and what is accepted has the manifest copies, the log and all table slots
apart from each other and on the device. -/
theorem whole_device_layout (sh : Shape) (n : UInt64) (ring : Option UInt32) (h : ∀ copies ∈ ring, 2 ≤ copies.toNat) :
    ((∃ m, ((onWhole n.toNat ring).resolveLayout sh).Accepted sh m) ↔
      MIN_DEVICE_BLOCKS sh + (ring.elim 0 fun copies => copies.toNat - 2) * Manifest.maxBlocks sh ≤ n.toNat) ∧
    ∀ m, ((onWhole n.toNat ring).resolveLayout sh).Accepted sh m →
      (extents sh ((onWhole n.toNat ring).resolveLayout sh) m).Pairwise (fun a b => disjoint a b = true) ∧
        ∀ r ∈ extents sh ((onWhole n.toNat ring).resolveLayout sh) m, r.2 ≤ n.toNat := by
  have hmax : n.toNat ≤ U64_MAX := Nat.le_of_lt_succ n.toNat_lt
  have hshape : ∃ k, k ≠ 1 ∧ onWhole n.toNat ring = ⟨0, 0, 0, 0, 0, 0, k, n.toNat, 0⟩ ∧
      ringCopies k = (ring.elim 0 fun copies => copies.toNat - 2) + 2 := by
    cases ring with
    | none => exact ⟨0, by decide, rfl, rfl⟩
    | some copies =>
      have hcopies := h copies rfl
      have hring : (if copies.toNat < 2 then 2 else copies.toNat) = copies.toNat := if_neg (by omega)
      refine ⟨copies.toNat, by omega, congrArg (fun k => Config.mk 0 0 0 0 0 0 k n.toNat 0) hring, ?_⟩
      rw [ringCopies, if_neg (by omega)]
      exact (Nat.sub_add_cancel hcopies).symm
  obtain ⟨k, hk, hcfg, hcopies⟩ := hshape
  obtain ⟨hiff, hextents⟩ := @accepted_whole sh n.toNat hmax k hk
  rw [hcfg]
  constructor
  · rw [hiff, hcopies, MIN_DEVICE_BLOCKS, Nat.mul_add, Nat.mul_comm (Manifest.maxBlocks sh),
      Nat.mul_comm (Manifest.maxBlocks sh)]
    omega
  · intro m hm
    obtain ⟨hpair, hinside⟩ := hextents m hm
    refine ⟨hpair.imp ?_, hinside⟩
    intro a b hab
    simp [disjoint, hab]

/-- A ring of three copies of five blocks each: one block less is refused. -/
theorem whole_device_layout_three : (∃ m, ((onWhole 65 (some 3)).resolveLayout .wide).Accepted .wide m) ∧
    ¬ ∃ m, ((onWhole 64 (some 3)).resolveLayout .wide).Accepted .wide m := by
  have hring : ∀ copies ∈ some (3 : UInt32), 2 ≤ copies.toNat := by
    intro copies hc
    rw [← Option.some.inj hc]
    decide
  constructor
  · exact (whole_device_layout .wide 65 (some 3) hring).1.mpr (by decide +kernel)
  · intro hc
    exact absurd ((whole_device_layout .wide 64 (some 3) hring).1.mp hc) (by decide +kernel)

end Config

end Horton
