import Horton.Manifest.Commit

/-!
# The manifest across power cuts

`Holds` relates a device to the manifest that recovery returns from it, over any number of commits of which some were
cut.  A cut commit leaves blocks with the next `seq` behind, but never the last block of their copy, and this is what keeps
the copy of a later commit with the same `seq` from being completed by them.
-/

namespace Horton

open BlockDev

namespace Manifest

/-- What recovery returns for a manifest that stands on the device: fresh before its first commit. -/
def recovered (sh : Shape) (m : Manifest) : Manifest × Bool := if m.seq = 0 then (new sh, true) else (m, false)

/-- Content `x` was once written whole to block `j`. -/
def BlockWritten (d : Device) (j : Nat) (x : BlockHead × Bytes) : Prop :=
  ∃ w ∈ d.writes, w.block = j ∧ content w.data = some x ∧ content w.after = some x

/-- A block of the copies that was not written whole does not pass its check. -/
def NoForgedCopy (sh : Shape) (layout : ManifestLayout) (d : Device) : Prop :=
  ∀ k < layout.copies, ∀ i < maxBlocks sh, ∀ x, content (d.blocks (layout.copyStart k (maxBlocks sh) + i)) = some x →
    BlockWritten d (layout.copyStart k (maxBlocks sh) + i) x

instance (d : Device) (j : Nat) (x : BlockHead × Bytes) : Decidable (BlockWritten d j x) :=
  inferInstanceAs (Decidable (∃ w ∈ d.writes, w.block = j ∧ content w.data = some x ∧ content w.after = some x))

instance (sh : Shape) (layout : ManifestLayout) (d : Device) : Decidable (NoForgedCopy sh layout d) :=
  inferInstanceAs (Decidable (∀ k < layout.copies, ∀ i < maxBlocks sh,
    ∀ x ∈ content (d.blocks (layout.copyStart k (maxBlocks sh) + i)),
      BlockWritten d (layout.copyStart k (maxBlocks sh) + i) x))

/-- A block of one of the copies. -/
def InCopies (sh : Shape) (layout : ManifestLayout) (j : Nat) : Prop :=
  ∃ k < layout.copies, ∃ i < maxBlocks sh, j = layout.copyStart k (maxBlocks sh) + i

/-- The device holds `m` as its newest manifest.  Blocks that were ever written are older, belong to its copy, or were left
in the next copy by a commit that did not get to its last block. -/
structure Holds (sh : Shape) (layout : ManifestLayout) (d : Device) (m : Manifest) : Prop where
  wf : m.WF sh
  seq_le : m.seq ≤ U64_MAX
  fresh : m.seq = 0 → isBlank (d.blocks (layout.copyStart 0 (maxBlocks sh))) = true
  current : m.seq ≠ 0 → ∀ i < blocksFor sh (encodeBody m).length,
    content (d.blocks (layout.copyStart (m.seq % layout.copies) (maxBlocks sh) + i)) =
      content (copyBlock sh (encodeBody m) m.seq i)
  history : ∀ k < layout.copies, ∀ i < maxBlocks sh, ∀ x, BlockWritten d (layout.copyStart k (maxBlocks sh) + i) x →
    x.1.seq < m.seq ∨ (x.1.seq = m.seq ∧ m.seq ≠ 0 ∧ k = m.seq % layout.copies) ∨
      (x.1.seq = m.seq + 1 ∧ k = (m.seq + 1) % layout.copies ∧ i + 1 < x.1.count)

variable {sh : Shape} {layout : ManifestLayout} {d d' : Device} {m : Manifest} {e : ManifestEdit} {t q : Nat}

/-- The next commit does not write the copy that holds the current manifest. -/
theorem succ_mod_ne {n c : Nat} (hc : 2 ≤ c) : n % c ≠ (n + 1) % c := by
  intro h
  have h1 := Nat.div_add_mod n c
  have h2 := Nat.div_add_mod (n + 1) c
  rw [← h] at h2
  have h3 : c * ((n + 1) / c) = c * (n / c) + 1 := by omega
  have h4 : c ∣ 1 := by
    rw [show (1 : Nat) = c * ((n + 1) / c) - c * (n / c) by omega]
    exact Nat.dvd_sub (Dvd.intro _ rfl) (Dvd.intro _ rfl)
  have := Nat.le_of_dvd (by omega) h4
  omega

theorem maxBlocks_pos (sh : Shape) : 0 < maxBlocks sh := by
  rw [maxBlocks, lt_divCeil (chunk_pos sh), MAX_BODY]
  omega

theorem isBody_writeBody (hm : m.WF sh) (he : e.WF sh) (hc : m.checkEdit sh e = .ok ()) : IsBody sh (writeBody sh m e) := by
  rw [writeBody_eq]
  exact isBody_encodeBody (view_wf hm he hc)

theorem Holds.body (h : Holds sh layout d m) : IsBody sh (encodeBody m) := isBody_encodeBody h.wf

theorem Holds.seq_lt (h : Holds sh layout d m) : m.seq < 2 ^ 64 := by
  have := h.seq_le
  rw [U64_MAX] at this
  omega

/-- Nothing outside the copies matters. -/
theorem Holds.keeps (h : Holds sh layout d m) (hk : Keeps (InCopies sh layout) d d') : Holds sh layout d' m := by
  have hc := layout.two_le_copies
  have hin : ∀ k < layout.copies, ∀ i < maxBlocks sh, InCopies sh layout (layout.copyStart k (maxBlocks sh) + i) :=
    fun k hk i hi => ⟨k, hk, i, hi, rfl⟩
  refine ⟨h.wf, h.seq_le, fun h0 => ?_, fun h0 i hi => ?_, fun k hk' i hi x => ?_⟩
  · have := hk.blocks _ (hin 0 (by omega) 0 (maxBlocks_pos sh))
    rw [Nat.add_zero] at this
    rw [this]
    exact h.fresh h0
  · rw [hk.blocks _ (hin _ (Nat.mod_lt _ (by omega)) i (lt_of_lt_of_le hi h.body.blocksFor_le))]
    exact h.current h0 i hi
  · rintro ⟨w, hw, hb, hx⟩
    exact h.history k hk' i hi x ⟨w, hk.writes w hw (hb ▸ hin k hk' i hi), hb, hx⟩

/-! ### Recovery -/

/-- Every copy but the current one is older. -/
private theorem Holds.probe_lt (h : Holds sh layout d m) (hf : NoForgedCopy sh layout d) {k : Nat} (hk : k < layout.copies)
    (hne : m.seq ≠ 0 → k ≠ m.seq % layout.copies) {s c : Nat} (hp : probeOf sh layout d.blocks k = .intact s c) :
    s < m.seq := by
  have heval := @eval_probeOf sh d.blocks layout k
  rw [hp] at heval
  obtain ⟨cs, hcs, rfl, hle⟩ := copyIs_of_intact heval
  have hpos := List.length_pos_of_ne_nil hcs.ne_nil
  -- The last block tells a whole copy from what a cut commit left.
  have hlast := hcs.block (cs.length - 1) _ (List.getElem?_eq_getElem (by omega))
  rcases h.history k hk (cs.length - 1) (by omega) _ (hf k hk _ (by omega) _ hlast) with hlt | ⟨-, h0, hcur⟩ | ⟨-, -, hlt⟩
  · exact hlt
  · exact absurd hcur (hne h0)
  · simp only at hlt
    omega

theorem Holds.copyIs (h : Holds sh layout d m) (h0 : m.seq ≠ 0) :
    CopyIs sh d.blocks (layout.copyStart (m.seq % layout.copies) (maxBlocks sh)) m.seq (chunksOf sh (encodeBody m)) :=
  h.body.copyIs h.seq_lt (h.current h0)

/-- Recovery returns the manifest that the device holds. -/
theorem Holds.recover (h : Holds sh layout d m) (hf : NoForgedCopy sh layout d) :
    (recoverFrom sh layout).eval d.blocks = .ok (recovered sh m) := by
  have hc := layout.two_le_copies
  by_cases h0 : m.seq = 0
  · rw [recoverFrom_fresh _ ⟨0, by omega, h.fresh h0⟩, recovered, if_pos h0]
    intro k hk s c hp
    have := h.probe_lt hf hk (fun hne => absurd h0 hne) hp
    omega
  · have hcopy := h.copyIs h0
    rw [recoverFrom_newest (Nat.mod_lt _ (by omega)) hcopy (by rw [length_chunksOf]; exact h.body.blocksFor_le),
      eval_decodeCopy hcopy, h.body.flatten_chunksOf]
    · rw [decodeBody_encodeBody h.wf, recovered, if_neg h0]
      rfl
    · intro c hcm
      obtain ⟨i, hi, rfl⟩ := List.mem_map.mp hcm
      exact h.body.chunkAt_ne_nil (List.mem_range.mp hi)
    · intro k hk hne s c hp
      exact h.probe_lt hf hk (fun _ => hne) hp

/-! ### What a commit writes and what it applies -/

private theorem getElem?_positions (n i : Nat) (ls : List (List TableRef)) :
    (positions n ls)[i]? = ls[i]?.map fun l => l.zipIdx (n + ((ls.take i).map List.length).sum) := by
  induction ls generalizing n i with
  | nil => simp [positions]
  | cons l ls ih =>
    cases i with
    | zero => simp [positions]
    | succ i =>
      rw [positions, List.getElem?_cons_succ, ih, List.getElem?_cons_succ]
      simp [Nat.add_assoc]

/-- In a level that is in order the binary search ends where a scan for the first key does. -/
theorem insertRef_eq {li : Nat} (hli : 0 < li) {a : TableRef} {ts : List TableRef}
    (hord : ts.Pairwise (·.firstKey ≤ ·.firstKey)) :
    insertRef li a ts = ts.takeWhile (·.firstKey < a.firstKey) ++ a :: ts.dropWhile (·.firstKey < a.firstKey) := by
  have hkeys : ts.Pairwise fun x y => decide (y.firstKey < a.firstKey) = true → decide (x.firstKey < a.firstKey) = true := by
    refine hord.imp ?_
    intro x y hxy hy
    simpa using lt_of_le_of_lt hxy (of_decide_eq_true hy)
  obtain ⟨htake, hdrop⟩ := Search.split_partitionPoint hkeys
  rw [insertRef, if_neg (by omega)]
  dsimp only
  rw [htake, hdrop]

private theorem viewFrom_eq (hst : e.stamped = none) (li pos : Nat) (ts : List TableRef) (pending : Option TableRef)
    (hord : pending.isSome → 0 < li → (keptRefs e pos ts).Pairwise (·.firstKey ≤ ·.firstKey)) :
    viewFrom e li pos ts pending =
      (pending.map fun a => insertRef li a (keptRefs e pos ts)).getD (keptRefs e pos ts) := by
  induction ts generalizing pos pending with
  | nil => cases pending <;> simp [viewFrom, keptRefs, insertRef, Search.partitionPoint]
  | cons t ts ih =>
    have hcons : keptRefs e pos (t :: ts) =
        if bit e.removed pos then keptRefs e (pos + 1) ts else viewRef e pos t :: keptRefs e (pos + 1) ts := by
      rw [keptRefs, List.zipIdx_cons, List.filterMap_cons]
      cases bit e.removed pos <;> simp [keptRefs, viewRef, hst]
    rw [viewFrom, hcons]
    rw [hcons] at hord
    cases hrem : bit e.removed pos with
    | true =>
      simp only [hrem, if_true] at hord
      exact ih (pos + 1) pending hord
    | false =>
      simp only [hrem, Bool.false_eq_true, if_false] at hord
      have hrest : pending.isSome → 0 < li → (keptRefs e (pos + 1) ts).Pairwise (·.firstKey ≤ ·.firstKey) := fun hp hl =>
        (List.pairwise_cons.mp (hord hp hl)).2
      cases pending with
      | none => simp [ih (pos + 1) none (by simp)]
      | some a =>
        simp only [Bool.false_eq_true, if_false, Option.map_some, Option.getD_some]
        rcases Nat.eq_zero_or_pos li with rfl | hl
        · simp [ih (pos + 1) (some a) hrest, insertRef]
        · rw [insertRef_eq hl (hord rfl hl)]
          by_cases hlt : a.firstKey ≤ (viewRef e pos t).firstKey
          · rw [if_pos ⟨hl, hlt⟩, ih (pos + 1) none (by simp), List.takeWhile_cons_of_neg (by simpa using hlt),
              List.dropWhile_cons_of_neg (by simpa using hlt)]
            rfl
          · rw [if_neg (fun hc => hlt hc.2), ih (pos + 1) (some a) hrest, Option.map_some, Option.getD_some,
              insertRef_eq hl (hrest rfl hl), List.takeWhile_cons_of_pos (by simpa using hlt),
              List.dropWhile_cons_of_pos (by simpa using hlt)]
            rfl

/-- What a commit writes is what it then applies in memory. -/
theorem applyChecked_eq_view (hl : m.levels.length = sh.LEVELS) (hst : e.stamped = none) (hord : m.InOrder e) :
    { m.applyChecked e with seq := m.seq + 1 } = m.view sh e := by
  have hkept : ((positions 0 m.levels).map fun l => l.filterMap fun x =>
      if bit e.removed x.2 then none
      else some (if bit e.narrowed x.2 then { x.1 with firstKey := e.narrowTo } else x.1)) =
      (List.range sh.LEVELS).map fun li => keptRefs e (m.start li) (m.level li) := by
    refine List.ext_getElem? fun i => ?_
    rw [List.getElem?_map, List.getElem?_map, getElem?_positions]
    rcases Nat.lt_or_ge i sh.LEVELS with hi | hi
    · have hi' : m.levels[i]? = some (m.level i) := by
        rw [level, List.getD_eq_getElem?_getD, List.getElem?_eq_getElem (by omega)]
        rfl
      rw [hi', List.getElem?_range hi]
      simp [keptRefs, start]
    · rw [List.getElem?_eq_none (by omega), List.getElem?_eq_none (by simpa using hi)]
      rfl
  rw [applyChecked, view]
  simp only [hst, hkept]
  congr 1
  · rw [Nat.max_assoc, Nat.max_assoc, Nat.max_comm e.flushed]
  · cases ha : e.added with
    | none =>
      refine List.map_congr_left fun li _ => ?_
      simp [viewLevel, ha, viewFrom_eq hst li _ _ none (by simp), Option.filter]
    | some a =>
      obtain ⟨lv, a⟩ := a
      refine List.ext_getElem? fun i => ?_
      rw [List.getElem?_modify, List.getElem?_map, List.getElem?_map]
      rcases Nat.lt_or_ge i sh.LEVELS with hi | hi
      · rw [List.getElem?_range hi]
        by_cases hlv : lv = i
        · subst hlv
          have hview := viewFrom_eq hst lv (m.start lv) (m.level lv) (some a) fun _ hl => hord (lv, a) ha hl
          simp [viewLevel, ha, hview, Option.filter]
        · simp [viewLevel, ha, viewFrom_eq hst i _ _ none (by simp), Option.filter, hlv]
      · rw [List.getElem?_eq_none (by simpa using hi)]
        rfl

/-- A stamp goes to the ref with the id. -/
private def stampRef (s : Nat × Nat × Nat) (t : TableRef) : TableRef :=
  if t.id = s.1 then { t with nodeId := s.2.1, sealWall := s.2.2 } else t

/-- At most one ref has the id that an edit stamps. -/
def StampsOne (m : Manifest) (e : ManifestEdit) : Prop := ∀ s ∈ e.stamped, (m.tables.filter (·.id = s.1)).length ≤ 1

private theorem map_stampRef_of_none {s : Nat × Nat × Nat} {l : List TableRef} (h : l.filter (·.id = s.1) = []) :
    l.map (stampRef s) = l := by
  refine (List.map_congr_left fun t ht => ?_).trans (List.map_id l)
  have := List.filter_eq_nil_iff.mp h t ht
  rw [stampRef, if_neg (by simpa using this)]
  rfl

private theorem modify_stamp {s : Nat × Nat × Nat} {l : List TableRef} (h : (l.filter (·.id = s.1)).length ≤ 1)
    (hany : l.any (·.id = s.1) = true) :
    l.modify (l.findIdx (·.id = s.1)) (fun t => { t with nodeId := s.2.1, sealWall := s.2.2 }) = l.map (stampRef s) := by
  induction l with
  | nil => simp at hany
  | cons t l ih =>
    by_cases ht : t.id = s.1
    · have hnil : l.filter (·.id = s.1) = [] := by
        rw [List.filter_cons_of_pos (by simpa using ht)] at h
        exact List.length_eq_zero_iff.mp (by simpa using h)
      rw [List.findIdx_cons, show decide (t.id = s.1) = true by simpa using ht, cond_true, List.modify_zero_cons,
        List.map_cons, map_stampRef_of_none hnil, stampRef, if_pos ht]
    · rw [List.filter_cons_of_neg (by simpa using ht)] at h
      have hany' : l.any (·.id = s.1) = true := by simpa [ht] using hany
      rw [List.findIdx_cons, show decide (t.id = s.1) = false by simpa using ht, cond_false, List.modify_succ_cons,
        List.map_cons, ih h hany', stampRef, if_neg ht]

private theorem stampFirst_eq {s : Nat × Nat × Nat} {ls : List (List TableRef)}
    (h : (ls.flatten.filter (·.id = s.1)).length ≤ 1) :
    stampFirst s.1 s.2.1 s.2.2 ls = ls.map fun l => l.map (stampRef s) := by
  induction ls with
  | nil => rfl
  | cons l ls ih =>
    rw [List.flatten_cons, List.filter_append, List.length_append] at h
    rw [stampFirst]
    split
    · rename_i hany
      have hpos : 0 < (l.filter (·.id = s.1)).length := by
        obtain ⟨t, ht, hid⟩ := List.any_eq_true.mp hany
        exact List.length_pos_of_mem (List.mem_filter.mpr ⟨ht, hid⟩)
      have hrest : ls.flatten.filter (·.id = s.1) = [] := List.length_eq_zero_iff.mp (by omega)
      rw [modify_stamp (by omega) hany, List.map_cons]
      congr 1
      refine ((List.map_congr_left fun l' hl' => ?_).trans (List.map_id ls)).symm
      refine map_stampRef_of_none (List.filter_eq_nil_iff.mpr fun t ht => ?_)
      exact List.filter_eq_nil_iff.mp hrest t (List.mem_flatten.mpr ⟨l', hl', ht⟩)
    · rename_i hany
      have hnil : l.filter (·.id = s.1) = [] := by
        refine List.filter_eq_nil_iff.mpr fun t ht hid => hany ?_
        exact List.any_eq_true.mpr ⟨t, ht, hid⟩
      rw [ih (by omega), List.map_cons, map_stampRef_of_none hnil]

/-- The manifest with a stamp, before the rest of its edit. -/
private def stampAll (m : Manifest) (s : Nat × Nat × Nat) : Manifest :=
  { m with levels := m.levels.map fun l => l.map (stampRef s) }

private theorem stampRef_narrow (s : Nat × Nat × Nat) (c : Bool) (key : Bytes) (t : TableRef) :
    (if c then { stampRef s t with firstKey := key } else stampRef s t) =
      stampRef s (if c then { t with firstKey := key } else t) := by
  cases c with
  | false => rfl
  | true =>
    simp only [stampRef, if_true]
    split <;> rfl

private theorem viewRef_stamped {s : Nat × Nat × Nat} (hst : e.stamped = some s) (pos : Nat) (t : TableRef) :
    viewRef e pos t = viewRef { e with stamped := none } pos (stampRef s t) := by
  rw [viewRef, viewRef]
  simp only [hst]
  rw [stampRef_narrow]
  rfl

private theorem viewFrom_stamped {s : Nat × Nat × Nat} (hst : e.stamped = some s) (li pos : Nat) (ts : List TableRef)
    (pending : Option TableRef) :
    viewFrom e li pos ts pending = viewFrom { e with stamped := none } li pos (ts.map (stampRef s)) pending := by
  induction ts generalizing pos pending with
  | nil => rfl
  | cons t ts ih =>
    rw [List.map_cons, viewFrom, viewFrom, viewRef_stamped hst]
    split
    · exact ih (pos + 1) pending
    · cases pending with
      | none => simp only [ih]
      | some a => simp only [ih]

private theorem level_stampAll (m : Manifest) (s : Nat × Nat × Nat) (li : Nat) :
    (stampAll m s).level li = (m.level li).map (stampRef s) := by
  rw [level, level, stampAll, List.getD_eq_getElem?_getD, List.getD_eq_getElem?_getD, List.getElem?_map]
  cases m.levels[li]? <;> rfl

private theorem start_stampAll (m : Manifest) (s : Nat × Nat × Nat) (li : Nat) : (stampAll m s).start li = m.start li := by
  rw [start, start, stampAll, ← List.map_take, List.map_map]
  congr 2
  funext l
  simp

private theorem view_stamped {s : Nat × Nat × Nat} (hst : e.stamped = some s) :
    m.view sh e = (stampAll m s).view sh { e with stamped := none } := by
  rw [view, view]
  congr 1
  refine List.map_congr_left fun li _ => ?_
  rw [viewLevel, viewLevel, viewFrom_stamped hst, level_stampAll, start_stampAll]

private theorem keptRefs_stamped (s : Nat × Nat × Nat) (pos : Nat) (ts : List TableRef) :
    keptRefs e pos (ts.map (stampRef s)) = (keptRefs e pos ts).map (stampRef s) := by
  induction ts generalizing pos with
  | nil => rfl
  | cons t ts ih =>
    have ih' := ih (pos + 1)
    unfold keptRefs at ih' ⊢
    rw [List.map_cons, List.zipIdx_cons, List.zipIdx_cons, List.filterMap_cons, List.filterMap_cons]
    cases bit e.removed pos with
    | true => exact ih'
    | false =>
      simp only [Bool.false_eq_true, if_false, List.map_cons]
      rw [ih', stampRef_narrow]

/-- Stamps leave first keys alone. -/
private theorem inOrder_stampAll (s : Nat × Nat × Nat) (h : m.InOrder e) : (stampAll m s).InOrder { e with stamped := none } := by
  intro x hx hl
  rw [level_stampAll, start_stampAll]
  have hkey : ∀ t, (stampRef s t).firstKey = t.firstKey := by
    intro t
    unfold stampRef
    split <;> rfl
  show (keptRefs e _ _).Pairwise _
  rw [keptRefs_stamped, List.pairwise_map]
  simp only [hkey]
  exact h x hx hl

/-- What a commit writes is what it then applies in memory, stamps included. -/
theorem applyChecked_eq_view_of_stampsOne (hl : m.levels.length = sh.LEVELS) (hst : m.StampsOne e) (hord : m.InOrder e) :
    { m.applyChecked e with seq := m.seq + 1 } = m.view sh e := by
  cases hs : e.stamped with
  | none => exact applyChecked_eq_view hl hs hord
  | some s =>
    have hone := hst s hs
    rw [tables] at hone
    have happly : m.applyChecked e = (stampAll m s).applyChecked { e with stamped := none } := by
      rw [applyChecked, applyChecked]
      simp only [hs, stampFirst_eq hone, stampAll]
    rw [happly, view_stamped hs, ← applyChecked_eq_view (by simpa [stampAll] using hl) rfl (inOrder_stampAll s hord)]
    rfl

/-! ### Commits -/

/-- The first `t` blocks of the copy of `e`, and `q` bytes of the next one, went over the blocks of `d`. -/
abbrev Wrote (sh : Shape) (layout : ManifestLayout) (m : Manifest) (e : ManifestEdit) (d d' : Device) (t q : Nat) : Prop :=
  Landed d d' (nextStart sh layout m) (blocksFor sh (writeBody sh m e).length) (copyBlock sh (writeBody sh m e) (m.seq + 1))
    t q

/-- A block of the copies that the commit wrote lies in the next copy. -/
private theorem copy_inj (hdis : layout.Disjoint (maxBlocks sh)) {k i j : Nat} (hk : k < layout.copies)
    (hi : i < maxBlocks sh) (hj : j < maxBlocks sh)
    (h : nextStart sh layout m + j = layout.copyStart k (maxBlocks sh) + i) : k = (m.seq + 1) % layout.copies ∧ i = j := by
  have hc := layout.two_le_copies
  have hk' : k = (m.seq + 1) % layout.copies := by
    by_contra hne
    exact hdis k hk _ (Nat.mod_lt _ (by omega)) hne i hi j hj h.symm
  subst hk'
  rw [nextStart] at h
  exact ⟨rfl, by omega⟩

/-- All blocks of the copies but those of the next one are as they were. -/
private theorem Wrote.others (hl : Wrote sh layout m e d d' t q) (hbody : IsBody sh (writeBody sh m e))
    (hdis : layout.Disjoint (maxBlocks sh)) {k i : Nat} (hk : k < layout.copies) (hne : k ≠ (m.seq + 1) % layout.copies)
    (hi : i < maxBlocks sh) :
    d'.blocks (layout.copyStart k (maxBlocks sh) + i) = d.blocks (layout.copyStart k (maxBlocks sh) + i) := by
  refine hl.rest _ fun j _ hj heq => hne ?_
  exact (copy_inj hdis hk hi (lt_of_lt_of_le hj hbody.blocksFor_le) heq.symm).1

/-- What the commit wrote whole, and what was written before. -/
private theorem Wrote.history (hl : Wrote sh layout m e d d' t q) (hbody : IsBody sh (writeBody sh m e))
    (hdis : layout.Disjoint (maxBlocks sh)) (hs : m.seq + 1 < 2 ^ 64) {k i : Nat} (hk : k < layout.copies)
    (hi : i < maxBlocks sh) {x : BlockHead × Bytes} (hx : BlockWritten d' (layout.copyStart k (maxBlocks sh) + i) x) :
    BlockWritten d (layout.copyStart k (maxBlocks sh) + i) x ∨
      (k = (m.seq + 1) % layout.copies ∧ i ≤ t ∧ i < blocksFor sh (writeBody sh m e).length ∧ x.1.seq = m.seq + 1 ∧
        x.1.count = blocksFor sh (writeBody sh m e).length ∧
        content (d'.blocks (nextStart sh layout m + i)) = content (copyBlock sh (writeBody sh m e) (m.seq + 1) i)) := by
  obtain ⟨w, hw, hb, hdata, hafter⟩ := hx
  rcases hl.writes w hw with hold | ⟨j, hj, hjt, hblk, hd⟩
  · exact Or.inl ⟨w, hold, hb, hdata, hafter⟩
  rcases hl.after w hw with hold | ⟨j', hj', hblk', hd', ha'⟩
  · exact Or.inl ⟨w, hold, hb, hdata, hafter⟩
  obtain rfl : j' = j := by omega
  obtain ⟨rfl, rfl⟩ := copy_inj hdis hk hi (lt_of_lt_of_le hj hbody.blocksFor_le) (hblk.symm.trans hb)
  rw [ha'] at hafter
  rw [hd, hbody.content_copyBlock hs hj] at hdata
  refine Or.inr ⟨rfl, hjt, hj, ?_, ?_, ?_⟩
  · rw [← Option.some.inj hdata]
  · rw [← Option.some.inj hdata]
  · rw [hafter, hbody.content_copyBlock hs hj, hdata]

variable (hdis : layout.Disjoint (maxBlocks sh)) (he : e.WF sh) (hacc : m.checkEdit sh e = .ok ())
  (hseq : m.seq + 1 ≤ U64_MAX)
include hdis he hacc hseq

/-- All blocks of the commit are there: the device holds the edited manifest. -/
theorem Holds.committed (h : Holds sh layout d m) (hl : Wrote sh layout m e d d' t q)
    (hall : ∀ i < blocksFor sh (writeBody sh m e).length,
      content (d'.blocks (nextStart sh layout m + i)) = content (copyBlock sh (writeBody sh m e) (m.seq + 1) i)) :
    Holds sh layout d' (m.view sh e) := by
  have hbody := isBody_writeBody h.wf he hacc
  have hs : m.seq + 1 < 2 ^ 64 := by rw [U64_MAX] at hseq; omega
  refine ⟨view_wf h.wf he hacc, hseq, by simp [view], fun _ i hi => ?_, fun k hk i hi x hx => ?_⟩
  · rw [← writeBody_eq] at hi ⊢
    exact hall i hi
  · simp only [view]
    rcases hl.history hbody hdis hs hk hi hx with hold | ⟨hk', -, -, hxs, -⟩
    · rcases h.history k hk i hi x hold with hlt | ⟨hxs, -⟩ | ⟨hxs, hk', -⟩
      · exact Or.inl (by omega)
      · exact Or.inl (by omega)
      · exact Or.inr (Or.inl ⟨hxs, by omega, hk'⟩)
    · exact Or.inr (Or.inl ⟨hxs, by omega, hk'⟩)

/-- A cut commit leaves the device holding the old manifest or the edited one. -/
theorem Holds.cut (h : Holds sh layout d m) (hl : Wrote sh layout m e d d' t q) :
    Holds sh layout d' m ∨ Holds sh layout d' (m.view sh e) := by
  have hbody := isBody_writeBody h.wf he hacc
  have hs : m.seq + 1 < 2 ^ 64 := by rw [U64_MAX] at hseq; omega
  have hc := layout.two_le_copies
  by_cases hall : ∀ i < blocksFor sh (writeBody sh m e).length,
      content (d'.blocks (nextStart sh layout m + i)) = content (copyBlock sh (writeBody sh m e) (m.seq + 1) i)
  · exact Or.inr (h.committed hdis he hacc hseq hl hall)
  refine Or.inl ⟨h.wf, h.seq_le, fun h0 => ?_, fun h0 i hi => ?_, fun k hk i hi x hx => ?_⟩
  · have hk0 : 0 ≠ (m.seq + 1) % layout.copies := by rw [h0, Nat.zero_add, Nat.mod_eq_of_lt (by omega)]; omega
    have := hl.others hbody hdis (by omega) hk0 (maxBlocks_pos sh)
    rw [Nat.add_zero] at this
    rw [this]
    exact h.fresh h0
  · rw [hl.others hbody hdis (Nat.mod_lt _ (by omega)) (succ_mod_ne hc) (lt_of_lt_of_le hi h.body.blocksFor_le)]
    exact h.current h0 i hi
  · rcases hl.history hbody hdis hs hk hi hx with hold | ⟨hk', hit, hin, hxs, hxc, hcont⟩
    · exact h.history k hk i hi x hold
    · refine Or.inr (Or.inr ⟨hxs, hk', ?_⟩)
      rw [hxc]
      -- With its last block the commit has all of them.
      by_contra hge
      refine hall fun j hj => ?_
      rcases Nat.lt_or_ge j t with hjt | hjt
      · rw [hl.whole j hjt]
      · obtain rfl : j = i := by omega
        exact hcont

omit hacc hseq

/-- How a commit of any edit ends when the device holds the manifest: refused, committed, or cut with the old manifest or
the new one standing. -/
theorem Holds.commit_spec (h : Holds sh layout d m) (hst : m.StampsOne e) (hord : m.InOrder e) :
    (commitEdit sh layout e).wp (fun o m' d' => (m' = m ∧ d' = d ∧ ∃ x, o = .err x) ∨
      (Keeps (fun j => ¬ InCopies sh layout j) d d' ∧ match o with
        | .ok _ => m' = m.view sh e ∧ Holds sh layout d' (m.view sh e)
        | .err _ => ∃ k, Fate.fail k ∈ d.fates
        | .cut => Holds sh layout d' m ∨ Holds sh layout d' (m.view sh e)
        | .dropped => ∃ k, Fate.drop k ∈ d.fates)) m d := by
  cases hacc : m.checkEdit sh e with
  | error x =>
    rw [commitEdit, Prog.wp_bind, Prog.wp_get, Prog.andThen_ok, hacc]
    exact Or.inl ⟨rfl, rfl, x, rfl⟩
  | ok u =>
    by_cases hseq : m.seq + 1 ≤ U64_MAX
    swap
    · rw [commitEdit, Prog.wp_bind, Prog.wp_get, Prog.andThen_ok, hacc, Prog.wp_bind, Prog.wp_ofExcept_ok, Prog.andThen_ok,
        if_pos (by omega)]
      exact Or.inl ⟨rfl, rfl, _, rfl⟩
    have hbody := isBody_writeBody h.wf he hacc
    have hkeeps : ∀ {d' : Device} {t q : Nat}, Wrote sh layout m e d d' t q →
        Keeps (fun j => ¬ InCopies sh layout j) d d' := by
      intro d' t q hl
      have hin : ∀ i < blocksFor sh (writeBody sh m e).length, InCopies sh layout (nextStart sh layout m + i) := by
        intro i hi
        have hc := layout.two_le_copies
        exact ⟨_, Nat.mod_lt _ (by omega), i, lt_of_lt_of_le hi hbody.blocksFor_le, rfl⟩
      refine ⟨fun j hj => hl.rest j fun i _ hi heq => hj (heq ▸ hin i hi), fun w hw hp => ?_, hl.kept⟩
      rcases hl.writes w hw with hold | ⟨i, hi, -, hb, -⟩
      · exact hold
      · exact absurd (hb ▸ hin i hi) hp
    have hmem : ∀ {t : Nat} {f : Fate}, d.fates.getD t .ok = f → f ≠ .ok → f ∈ d.fates := by
      intro t f hf hne
      rw [List.getD_eq_getElem?_getD] at hf
      cases hget : d.fates[t]? with
      | none => rw [hget] at hf; exact absurd hf.symm hne
      | some x =>
        rw [hget] at hf
        exact hf ▸ List.mem_of_getElem? hget
    refine Prog.wp_mono (commitEdit_spec layout hbody hacc hseq d) ?_
    intro o m' d' hp
    refine Or.inr ?_
    cases o with
    | ok u =>
      obtain ⟨rfl, hl, -⟩ := hp
      refine ⟨hkeeps hl, applyChecked_eq_view_of_stampsOne h.wf.length_levels hst hord, ?_⟩
      exact h.committed hdis he hacc hseq hl fun i hi => by rw [hl.whole i hi]
    | err x =>
      obtain ⟨-, -, t, k, hl, hf⟩ := hp
      exact ⟨hkeeps hl, k, hmem hf (by simp)⟩
    | cut =>
      obtain ⟨-, t, k, hl, -⟩ := hp
      exact ⟨hkeeps hl, h.cut hdis he hacc hseq hl⟩
    | dropped =>
      obtain ⟨-, t, k, hl, hf⟩ := hp
      exact ⟨hkeeps hl, k, hmem hf (by simp)⟩

omit hdis he

/-- What a commit leaves in memory: the manifest it was given, or the edited one. -/
theorem commitEdit_view (hm : m.WF sh) (he : e.WF sh) (hst : m.StampsOne e) (hord : m.InOrder e) (d : Device) :
    (commitEdit sh layout e).wp (fun o m' _ => match o with
      | .ok _ => m.checkEdit sh e = .ok () ∧ m' = m.view sh e
      | _ => m' = m) m d := by
  cases hacc : m.checkEdit sh e with
  | error x =>
    rw [commitEdit, Prog.wp_bind, Prog.wp_get, Prog.andThen_ok, hacc]
    rfl
  | ok u =>
    by_cases hseq : m.seq + 1 ≤ U64_MAX
    swap
    · rw [commitEdit, Prog.wp_bind, Prog.wp_get, Prog.andThen_ok, hacc, Prog.wp_bind, Prog.wp_ofExcept_ok, Prog.andThen_ok,
        if_pos (by omega)]
      rfl
    refine Prog.wp_mono (commitEdit_spec layout (isBody_writeBody hm he hacc) hacc hseq d) ?_
    intro o m' d' hp
    cases o with
    | ok u => exact ⟨rfl, hp.1.trans (applyChecked_eq_view_of_stampsOne hm.length_levels hst hord)⟩
    | err x => exact hp.1
    | cut => exact hp.1
    | dropped => exact hp.1

end Manifest

end Horton
