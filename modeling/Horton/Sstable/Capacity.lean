import Horton.Sstable.Agreement

/-!
# When a table fits

Entries that fit blocks of their own can still be too many for one table: the index is a single block, restart offsets and
the count of a range-tombstone block are 16-bit numbers.  `Fits` states these limits for the packing of a whole table, and
a build in a run of the planned length goes through exactly within them (`buildable_of_fits`, `Built.fits`).  The number
of blocks that the packing takes is bounded by `packedBlocksBound` (`length_bins_le_bound`).
-/

namespace Horton

open BlockDev

namespace Sstable

/-- The limits of one table: the index entries of all data blocks share a block, every restart offset is a 16-bit number,
and so is the number of tombstones of a block. -/
structure Fits (sh : Shape) (es : List SstEntry) (rdels : List RdelEntry) : Prop where
  index : ((dataBins sh es).map fun b => (firstKeyOf b).length + 18).sum ≤ bodyEnd sh
  restarts : ∀ b ∈ dataBins sh es, ∀ r ∈ restartsOf b, r ≤ U16_MAX
  counts : ∀ b ∈ rdelBins sh rdels, b.length ≤ U16_MAX

variable {sh : Shape} {base limit : Nat} {es : List SstEntry} {rdels : List RdelEntry}

theorem length_indexFrom (base : Nat) (bs : List (List SstEntry)) :
    (indexFrom base bs).length = (bs.map fun b => (firstKeyOf b).length + 18).sum := by
  induction bs generalizing base with
  | nil => rfl
  | cons b bs ih => rw [indexFrom, List.length_append, length_encodeIndexEntry, ih, List.map_cons, List.sum_cons]

theorem length_indexFrom_le {a b : List (List SstEntry)} (h : a <+: b) :
    (indexFrom base a).length ≤ (indexFrom base b).length := by
  obtain ⟨c, rfl⟩ := h
  rw [indexFrom_append, List.length_append]
  omega

theorem restartsOf_subset {a b : List SstEntry} (h : a <+: b) : restartsOf a ⊆ restartsOf b := by
  obtain ⟨c, rfl⟩ := h
  unfold restartsOf
  rw [restartsFrom_append]
  exact List.subset_append_left _ _

/-- The closed bins come first among all bins. -/
theorem closed_isPrefix {α : Type} (q : Packing α) : q.closed <+: q.bins := by
  unfold Packing.bins
  split
  · exact List.prefix_refl _
  · exact List.prefix_append _ _

/-- The final packing `q` is within the limits of a run of `limit` data blocks at `base`. -/
structure Within (sh : Shape) (base limit : Nat) (q : Packing SstEntry) : Prop where
  limit : q.bins.length ≤ limit
  ids : base + q.bins.length ≤ U64_MAX
  index : (indexFrom base q.bins).length ≤ bodyEnd sh
  restarts : ∀ b ∈ q.bins, ∀ r ∈ restartsOf b, r ≤ U16_MAX

/-- On the way to a packing within the limits every entry can be pushed. -/
theorem pushableAll_of_within {p : Packing SstEntry} (he : ∀ e ∈ es, Encodable sh e ∧ fitsBlock sh [] e = true)
    (h : Within sh base limit (es.foldl (Packing.push (fitsBlock sh)) p)) : TableWriter.PushableAll sh base limit p es := by
  induction es generalizing p with
  | nil => trivial
  | cons e es ih =>
    obtain ⟨henc, hnil⟩ := he e (by simp)
    have hne : (p.push (fitsBlock sh) e).current ≠ [] := Packing.current_push p e
    refine ⟨⟨henc, hnil, ?_, ?_⟩, ih (fun x hx => he x (by simp [hx])) h⟩
    · -- The open block ends up in front of a block of the final packing.
      obtain ⟨b, hb, hpre⟩ := Packing.current_prefix_foldl (fitsBlock sh) hne es
      exact fun r hr => h.restarts b (List.mem_of_getElem? hb) r (restartsOf_subset hpre hr)
    · -- A block that is closed stays closed.
      intro hfull
      have hclosed := Packing.closed_prefix_foldl (fitsBlock sh) (p.push (fitsBlock sh) e) es
      have hbins := hclosed.trans (closed_isPrefix _)
      have hcur := Packing.current_prefix_foldl (fitsBlock sh) hne es
      rw [Packing.push_full hfull] at hclosed hbins hcur
      obtain ⟨b, hb, -⟩ := hcur
      have hlt := (List.getElem?_eq_some_iff.mp hb).1
      rw [List.length_append, List.length_singleton] at hlt
      have hlimit := h.limit
      have hids := h.ids
      rw [List.foldl_cons, Packing.push_full hfull] at hlimit hids
      refine ⟨by omega, by omega, ?_⟩
      have hindex := h.index
      rw [List.foldl_cons, Packing.push_full hfull] at hindex
      exact (length_indexFrom_le hbins).trans hindex

/-- A tombstone that the fields of the format can hold, in a block of its own. -/
structure RdelOk (sh : Shape) (r : RdelEntry) : Prop where
  start_le : r.start.length ≤ U16_MAX
  stop_le : r.stop.length ≤ U16_MAX
  fits_nil : fitsRdel sh [] r = true

theorem pushableAll_of_counts {p : Packing RdelEntry} (hr : ∀ r ∈ rdels, RdelOk sh r)
    (hlimit : (rdels.foldl (Packing.push (fitsRdel sh)) p).bins.length ≤ limit)
    (hids : base + (rdels.foldl (Packing.push (fitsRdel sh)) p).bins.length ≤ U64_MAX)
    (hcount : ∀ b ∈ (rdels.foldl (Packing.push (fitsRdel sh)) p).bins, b.length ≤ U16_MAX) :
    RdelWriter.PushableAll sh base limit p rdels := by
  induction rdels generalizing p with
  | nil => trivial
  | cons r rdels ih =>
    have hok := hr r (by simp)
    have hne : (p.push (fitsRdel sh) r).current ≠ [] := Packing.current_push p r
    refine ⟨⟨hok.start_le, hok.stop_le, hok.fits_nil, ?_⟩, ih (fun x hx => hr x (by simp [hx])) hlimit hids hcount⟩
    intro hfull
    have hclosed := Packing.closed_prefix_foldl (fitsRdel sh) (p.push (fitsRdel sh) r) rdels
    have hcur := Packing.current_prefix_foldl (fitsRdel sh) hne rdels
    have hmem := (hclosed.trans (closed_isPrefix _)).subset
    rw [Packing.push_full hfull] at hcur hmem
    rw [List.foldl_cons, Packing.push_full hfull] at hlimit hids hcount
    obtain ⟨b, hb, -⟩ := hcur
    have hlt := (List.getElem?_eq_some_iff.mp hb).1
    rw [List.length_append, List.length_singleton] at hlt
    exact ⟨by omega, by omega, hcount _ (hmem (by simp))⟩

/-- A table within the limits can be built in a run of the planned length. -/
theorem buildable_of_fits (he : ∀ e ∈ es, Encodable sh e ∧ fitsBlock sh [] e = true) (hr : ∀ r ∈ rdels, RdelOk sh r)
    (hf : Fits sh es rdels) (hids : base + (dataBins sh es).length + (rdelBins sh rdels).length + 2 ≤ U64_MAX)
    (hrdels : (rdelBins sh rdels).length ≤ U32_MAX) : Buildable sh base (dataBins sh es).length es rdels := by
  have hindex : (indexFrom base (dataBins sh es)).length ≤ bodyEnd sh := by
    rw [length_indexFrom]
    exact hf.index
  have hwithin : Within sh base (dataBins sh es).length (Packing.pack (fitsBlock sh) es) :=
    ⟨le_rfl, by show base + (dataBins sh es).length ≤ _; omega, hindex, hf.restarts⟩
  refine ⟨pushableAll_of_within he hwithin, fun hne => ?_, ⟨?_, fun hne => ?_⟩, hids⟩
  · have hbins : dataBins sh es = (Packing.pack (fitsBlock sh) es).closed ++ [(Packing.pack (fitsBlock sh) es).current] := by
      rw [dataBins, Packing.bins, if_neg hne]
    have hlen := congrArg List.length hbins
    rw [List.length_append, List.length_singleton] at hlen
    rw [hbins] at hindex
    exact ⟨by omega, by omega, hindex⟩
  · exact pushableAll_of_counts hr hrdels (by show _ + (rdelBins sh rdels).length ≤ _; omega) hf.counts
  · have hbins : rdelBins sh rdels = (Packing.pack (fitsRdel sh) rdels).closed ++ [(Packing.pack (fitsRdel sh) rdels).current] := by
      rw [rdelBins, Packing.bins, if_neg hne]
    have hlen := congrArg List.length hbins
    rw [List.length_append, List.length_singleton] at hlen
    exact ⟨by omega, by omega, hf.counts _ (by rw [hbins]; simp)⟩

/-- A table that was built is within the limits. -/
theorem Built.fits {k rdelMinSeq : Nat} {r : FinishedTable × Nat} {d : Device} (h : Built sh base k es rdels rdelMinSeq r d) :
    Fits sh es rdels where
  index := by
    rw [← length_indexFrom base]
    exact h.table.fits
  restarts b hb := (h.table.block b hb).restart_le
  counts b hb := by
    obtain ⟨i, hi⟩ := List.getElem?_of_mem hb
    have hseal := h.tombstones i b hi
    by_contra hc
    rw [sealRdel, if_pos (by omega)] at hseal
    cases hseal

/-! ### How many blocks -/

theorem length_encodeEntries (b : List SstEntry) : (encodeEntries b).length = (b.map fun e => (encodeEntry e).length).sum := by
  rw [encodeEntries, List.length_flatMap]

theorem length_encodeRdels (b : List RdelEntry) : (encodeRdels b).length = (b.map fun r => (encodeRdel r).length).sum := by
  rw [encodeRdels, List.length_flatMap]

/-- The bound holds for every greedy packing by size, with at least `per` elements in a bin that is not full. -/
theorem length_bins_le_bound {α : Type} {fits : List α → α → Bool} {size : α → Nat} {room emax per : Nat} {l : List α}
    (hper : 0 < per) (hfull : ∀ b a, fits b a = false → room < (b.map size).sum + size a ∨ per ≤ b.length)
    (hsize : ∀ a ∈ l, size a ≤ emax) (hnil : ∀ a ∈ l, fits [] a = true) :
    (Packing.pack fits l).bins.length ≤ packedBlocksBound (l.map size).sum l.length emax room per := by
  have hlen := Packing.length_bins_le hnil
  unfold packedBlocksBound
  split
  · omega
  · dsimp only
    refine le_min ?_ hlen
    split
    · rename_i hroom
      have := Packing.length_closed_le (by omega : emax ≤ room) hper hfull hsize
      exact (Packing.length_bins_le_closed (Packing.pack fits l)).trans (Nat.succ_le_succ this)
    · exact hlen.trans (by rw [Nat.add_assoc]; exact Nat.le_add_right _ _)

theorem packedBlocksBound_mono {total total' n n' : Nat} (ht : total ≤ total') (hn : n ≤ n') (emax room per : Nat) :
    packedBlocksBound total n emax room per ≤ packedBlocksBound total' n' emax room per := by
  have h1 : total / (room - emax + 1) ≤ total' / (room - emax + 1) := Nat.div_le_div_right ht
  have h2 : n / per ≤ n' / per := Nat.div_le_div_right hn
  unfold packedBlocksBound
  dsimp only
  split
  · exact Nat.zero_le _
  · rename_i hne
    have hne' : ¬ n' = 0 := by omega
    rw [if_neg hne']
    refine min_le_min (Nat.succ_le_succ (Nat.add_le_add ?_ h2)) hn
    split
    · exact h1
    · exact hn

/-- An entry that does not fit finds its block full of bytes or of entries. -/
theorem full_of_not_fits {b : List SstEntry} {e : SstEntry} (h : fitsBlock sh b e = false) :
    sh.BLOCK - MAX_DATA_TAIL < (b.map fun e => (encodeEntry e).length).sum + (encodeEntry e).length ∨
      MAX_ENTRIES_PER_BLOCK ≤ b.length := by
  rw [← Bool.not_eq_true, fitsBlock_iff, length_encodeEntries] at h
  have hmin := sh.assertMin
  have htail : MAX_DATA_TAIL = 262 := rfl
  have hmax : MAX_ENTRIES_PER_BLOCK = 2048 := rfl
  omega

theorem full_of_not_fitsRdel {b : List RdelEntry} {r : RdelEntry} (h : fitsRdel sh b r = false) :
    sh.BLOCK - RDEL_TRAILER < (b.map fun r => (encodeRdel r).length).sum + (encodeRdel r).length ∨ U64_MAX ≤ b.length := by
  unfold fitsRdel at h
  rw [decide_eq_false_iff_not, length_encodeRdels] at h
  have hmin := sh.assertMin
  have htail : RDEL_TRAILER = 6 := rfl
  omega

/-- The sections of a table with `total` and `total'` entry bytes in `n` and `n'` entries, none longer than the shape
allows. -/
theorem length_bins_le_maxFlushBlocks (he : ∀ e ∈ es, (encodeEntry e).length ≤ ENTRY_HEADER + sh.KEY_MAX + sh.VAL_MAX + 8)
    (hfit : ∀ e ∈ es, fitsBlock sh [] e = true) (hr : ∀ r ∈ rdels, (encodeRdel r).length ≤ 12 + 2 * sh.KEY_MAX)
    (hfit' : ∀ r ∈ rdels, fitsRdel sh [] r = true) (hcap : es.length ≤ sh.CAP) (hcap' : rdels.length ≤ sh.CAP)
    (htotal : (encodeEntries es).length ≤ sh.ARENA + sh.CAP * (ENTRY_HEADER + 8))
    (htotal' : (encodeRdels rdels).length ≤ sh.ARENA + sh.CAP * 12) :
    (rdelBins sh rdels).length + (dataBins sh es).length + 3 ≤ maxFlushBlocks sh := by
  rw [length_encodeEntries] at htotal
  rw [length_encodeRdels] at htotal'
  have hdata := (length_bins_le_bound (by decide) (fun b e h => full_of_not_fits h) he hfit).trans
    (packedBlocksBound_mono htotal hcap _ _ _)
  have hrdel := (length_bins_le_bound (by decide) (fun b r h => full_of_not_fitsRdel h) hr hfit').trans
    (packedBlocksBound_mono htotal' hcap' _ _ _)
  unfold maxFlushBlocks rdelBins dataBins
  dsimp only
  omega

/-! ### What an accepted plan says -/

/-- An entry that a fuller block takes fits an empty one. -/
theorem entryFits_nil {payload entries elen : Nat} (h : entryFits sh payload entries elen = true) :
    entryFits sh 0 0 elen = true := by
  unfold entryFits RESTART_INTERVAL MAX_ENTRIES_PER_BLOCK at h ⊢
  split_ifs at h ⊢ with h1 h2 h3
  · omega
  · simp only [decide_eq_true_eq] at h ⊢
    omega

/-- A planned entry has lengths that its header can hold, and fits a block of its own. -/
theorem PlanState.step_ok {s s' : PlanState} {e : SstEntry} (h : s.step sh e = .ok s') :
    entrySizes e = .ok (encodeEntry e).length ∧ fitsBlock sh [] e = true := by
  unfold PlanState.step at h
  cases hsize : entrySizes e with
  | error x =>
    rw [hsize] at h
    cases h
  | ok elen =>
    rw [hsize] at h
    obtain ⟨-, -, -, rfl⟩ := entrySizes_ok hsize
    refine ⟨rfl, ?_⟩
    show entryFits sh 0 0 (encodeEntry e).length = true
    by_contra hnil
    have hfull : ¬ entryFits sh s.payload s.n (encodeEntry e).length = true := fun hc => hnil (entryFits_nil hc)
    have hroom : ∃ x, s.room sh (encodeEntry e).length = .error x := by
      unfold PlanState.room
      rw [if_neg hfull]
      by_cases hn : s.n = 0
      · exact ⟨_, if_pos hn⟩
      · rw [if_neg hn, if_pos (by simpa using hnil)]
        exact ⟨_, rfl⟩
    obtain ⟨x, hx⟩ := hroom
    change (s.room sh (encodeEntry e).length >>= _) = _ at h
    rw [hx] at h
    cases h

theorem plan_ok {s s' : PlanState} (h : es.foldlM (PlanState.step sh) s = .ok s') :
    ∀ e ∈ es, entrySizes e = .ok (encodeEntry e).length ∧ fitsBlock sh [] e = true := by
  induction es generalizing s with
  | nil => exact fun e he => by cases he
  | cons e es ih =>
    rw [List.foldlM_cons] at h
    cases hs : s.step sh e with
    | error x =>
      rw [hs] at h
      cases h
    | ok s₁ =>
      rw [hs] at h
      intro x hx
      rcases List.mem_cons.mp hx with rfl | hx
      · exact PlanState.step_ok hs
      · exact ih h x hx

/-- An accepted plan counts the blocks of the packing, and all its entries fit blocks of their own. -/
theorem planTable_ok {plan : TablePlan} (h : planTable sh es = .ok plan) :
    (∀ e ∈ es, fitsBlock sh [] e = true) ∧ plan.dataBlocks = (dataBins sh es).length := by
  unfold planTable at h
  cases hs : es.foldlM (PlanState.step sh) .new with
  | error x =>
    rw [hs] at h
    cases h
  | ok s =>
    rw [hs] at h
    have hes := plan_ok hs
    obtain ⟨s', hs', hfollows⟩ := plan_follows PlanState.follows_new hes
    obtain rfl : s' = s := Except.ok.inj (hs'.symm.trans hs)
    refine ⟨fun e he => (hes e he).2, ?_⟩
    have hblocks : plan.dataBlocks = if s'.n > 0 then s'.dataBlocks + 1 else s'.dataBlocks := by
      change (planBound sh s'.first >>= fun firstKey => planBound sh s'.last >>= fun lastKey => _) = _ at h
      cases hf : planBound sh s'.first with
      | error x => rw [hf] at h; cases h
      | ok k =>
        cases hl : planBound sh s'.last with
        | error x => rw [hf, hl] at h; cases h
        | ok l =>
          rw [hf, hl] at h
          obtain rfl := Except.ok.inj h
          rfl
    rw [hblocks]
    exact hfollows.blocks_eq

end Sstable

end Horton
