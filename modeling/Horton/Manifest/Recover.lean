import Horton.Manifest.Blocks

/-!
# Recovering a manifest

What `recoverFrom` returns in terms of the copies on the device: the body of the newest accepted copy, decoded
(`recoverFrom_newest`), or a fresh manifest when no copy is accepted and one is blank (`recoverFrom_fresh`).
-/

namespace Horton

open BlockDev Reader

namespace Manifest

variable {sh : Shape} {blocks : Nat → Bytes} {start seq : Nat} {cs : List Bytes}

/-! ### Streaming a copy -/

/-- The source stands in the copy with chunks `cs` where the bytes `rest` are left. -/
structure SourceAt (cs : List Bytes) (rest : Bytes) (src : BlockSource) : Prop where
  next_le : src.next ≤ cs.length
  off_le : src.off ≤ src.len
  length_loaded : ((src.scratch.drop 24).take src.len).length = src.len
  rest_eq : rest = ((src.scratch.drop 24).take src.len).drop src.off ++ (cs.drop src.next).flatten

private theorem streams_zero {rest : Bytes} {src : BlockSource} (h : SourceAt cs rest src) :
    Streams Error.corruptManifest (SourceAt cs) (bytes 0) rest (.ok ([], src)) := ⟨rest, by simp [bytes, onSlice], h⟩

/-- Reading `n` bytes and then `need` more is reading them all. -/
private theorem streams_add {rest : Bytes} {n need : Nat} {x : Except Error (Bytes × BlockSource)} (hn : n ≤ rest.length)
    (h : Streams Error.corruptManifest (SourceAt cs) (bytes need) (rest.drop n) x) :
    Streams Error.corruptManifest (SourceAt cs) (bytes (n + need)) rest (x.map fun y => (rest.take n ++ y.1, y.2)) := by
  cases x with
  | error e =>
    refine ⟨h.1, ?_⟩
    have h2 := h.2
    simp only [bytes, onSlice] at h2 ⊢
    split at h2
    · simp at h2
    · rename_i hlt
      rw [if_neg]
      simp only [List.length_drop] at hlt
      omega
  | ok y =>
    obtain ⟨rest', hr, hs⟩ := h
    refine ⟨rest', ?_, hs⟩
    simp only [bytes, onSlice] at hr ⊢
    split at hr
    · rename_i hle
      obtain ⟨h1, h2⟩ := Prod.mk.inj (Option.some.inj hr)
      simp only [List.length_drop] at hle
      rw [if_pos (by omega), ← h1, ← h2, List.drop_drop, List.take_add]
    · simp at hr

theorem eval_takeLoop (hcopy : CopyIs sh blocks start seq cs) (fuel need : Nat) {rest : Bytes} {src : BlockSource}
    (hfuel : need + (cs.length - src.next) < fuel) (h : SourceAt cs rest src) :
    Streams Error.corruptManifest (SourceAt cs) (bytes need) rest
      ((takeLoop start cs.length fuel need src).eval blocks) := by
  induction fuel generalizing need rest src with
  | zero => omega
  | succ fuel ih =>
    rw [takeLoop]
    split
    · rename_i h0
      subst h0
      exact streams_zero h
    · rename_i hneed
      split
      · rename_i hoff
        have hrest : rest = (cs.drop src.next).flatten := by
          rw [h.rest_eq, List.drop_of_length_le (by rw [h.length_loaded]; omega), List.nil_append]
        split
        · -- No block is left, and neither is a byte.
          rename_i hnext
          refine ⟨rfl, ?_⟩
          rw [hrest, List.drop_of_length_le (by omega)]
          simp [bytes, onSlice, hneed]
        · rename_i hnext
          have hlt : src.next < cs.length := by have := h.next_le; omega
          have hget : cs[src.next]? = some cs[src.next] := List.getElem?_eq_getElem hlt
          have hcont := hcopy.block _ _ hget
          obtain ⟨hcheck, hchunk⟩ := content_eq_some hcont
          rw [Reads.eval_bind, Reads.eval_block, Except.bind]
          simp only [hcheck, ne_eq, not_true, if_false]
          refine ih need (by dsimp only; omega) ⟨hlt, Nat.zero_le _, ?_, ?_⟩
          · rw [hchunk]
          · rw [hchunk, List.drop_zero, hrest, List.drop_eq_getElem_cons hlt, List.flatten_cons]
      · -- The loaded chunk has bytes left: take as many as are needed.
        rename_i hoff
        have hle := h.off_le
        have hrest := h.rest_eq
        have hll := h.length_loaded
        generalize hn : min (src.len - src.off) need = n
        have hn0 : 0 < n := by omega
        have hnle : n ≤ (((src.scratch.drop 24).take src.len).drop src.off).length := by rw [List.length_drop, hll]; omega
        have htake : (src.scratch.drop (24 + src.off)).take n = rest.take n := by
          rw [hrest, List.take_append_of_le_length hnle, List.drop_take, List.drop_drop, List.take_take,
            show min n (src.len - src.off) = n by omega]
        have hdrop : SourceAt cs (rest.drop n) { src with off := src.off + n } := by
          refine ⟨h.next_le, by dsimp only; omega, hll, ?_⟩
          rw [hrest, List.drop_append_of_le_length hnle, List.drop_drop]
        have hrec := ih (need - n) (by dsimp only; omega) hdrop
        have hadd := streams_add (by rw [hrest, List.length_append]; omega) hrec
        rw [show n + (need - n) = need by omega] at hadd
        rw [Reads.eval_bind, htake]
        generalize (takeLoop start cs.length fuel (need - n) { src with off := src.off + n }).eval blocks = x at hadd ⊢
        cases x with
        | error e => exact hadd
        | ok y => exact hadd

/-- Decoding an accepted copy decodes its chunks, one after the other. -/
theorem eval_decodeCopy (hcopy : CopyIs sh blocks start seq cs) (hne : ∀ c ∈ cs, c ≠ []) :
    (decodeCopy sh seq start cs.length).eval blocks = match (decodeBody sh).onSlice cs.flatten with
      | some (m, []) => .ok { m with seq := seq }
      | _ => .error .corruptManifest := by
  have hstart : SourceAt cs cs.flatten ⟨0, 0, 0, []⟩ := ⟨Nat.zero_le _, le_rfl, rfl, rfl⟩
  have hfetch : ∀ n rest src, SourceAt cs rest src → Streams Error.corruptManifest (SourceAt cs) (bytes n) rest
      ((takeBytes start cs.length n src).eval blocks) :=
    fun n rest src h => eval_takeLoop hcopy _ n (by omega) h
  have hs := eval_stream hfetch (decodeBody sh) hstart
  rw [decodeCopy, Reads.eval_bind]
  generalize ((decodeBody sh).stream (takeBytes start cs.length) .corruptManifest ⟨0, 0, 0, []⟩).eval blocks = x at hs ⊢
  rcases x with e | ⟨m, src⟩
  · obtain ⟨rfl, hnone⟩ := hs
    rw [hnone]
    rfl
  · obtain ⟨rest, hm, hsrc⟩ := hs
    rw [hm]
    have hend : (src.next = cs.length ∧ src.off = src.len) ↔ rest = [] := by
      have hll := hsrc.length_loaded
      have hle := hsrc.off_le
      rw [hsrc.rest_eq, List.append_eq_nil_iff, List.drop_eq_nil_iff, hll, List.flatten_eq_nil_iff]
      constructor
      · rintro ⟨h1, h2⟩
        exact ⟨by omega, by rw [h1]; simp⟩
      · rintro ⟨h1, h2⟩
        refine ⟨?_, by omega⟩
        by_contra hlt
        have hlt' : src.next < cs.length := by have := hsrc.next_le; omega
        have hmem : cs[src.next] ∈ cs.drop src.next := by
          rw [List.drop_eq_getElem_cons hlt']
          exact List.mem_cons_self
        exact hne _ (List.getElem_mem hlt') (h2 _ hmem)
    rw [Except.bind]
    cases rest with
    | nil =>
      obtain ⟨h1, h2⟩ := hend.mpr rfl
      simp [h1, h2]
    | cons b rest =>
      have hbad : src.next ≠ cs.length ∨ src.off ≠ src.len := by
        by_contra hc
        simp only [not_or, not_not] at hc
        exact absurd (hend.mp hc) (by simp)
      dsimp only
      rw [if_pos hbad]
      rfl

/-! ### Selecting a copy -/

/-- What the probe of a copy answers. -/
def probeOf (sh : Shape) (layout : ManifestLayout) (blocks : Nat → Bytes) (k : Nat) : Probe :=
  match (probeCopy sh (layout.copyStart k (maxBlocks sh)) (maxBlocks sh)).eval blocks with
  | .ok p => p
  | .error _ => .corrupt

variable {layout : ManifestLayout}

theorem eval_probeOf (k : Nat) : (probeCopy sh (layout.copyStart k (maxBlocks sh)) (maxBlocks sh)).eval blocks =
    .ok (probeOf sh layout blocks k) := by
  obtain ⟨p, hp, -⟩ := @eval_probeCopy_blank sh blocks (layout.copyStart k (maxBlocks sh)) (maxBlocks sh)
  rw [probeOf, hp]

theorem probeOf_blank {k : Nat} :
    probeOf sh layout blocks k = .blank ↔ isBlank (blocks (layout.copyStart k (maxBlocks sh))) = true := by
  obtain ⟨p, hp, hb⟩ := @eval_probeCopy_blank sh blocks (layout.copyStart k (maxBlocks sh)) (maxBlocks sh)
  rw [eval_probeOf] at hp
  rw [Except.ok.inj hp, hb]

/-- The copies seen after the probes of `ks`. -/
def foundOf (sh : Shape) (layout : ManifestLayout) (blocks : Nat → Bytes) (f : Found) (ks : List Nat) : Found :=
  ks.foldl (fun f k => f.note (layout.copyStart k (maxBlocks sh)) (probeOf sh layout blocks k)) f

theorem eval_recoverFrom : (recoverFrom sh layout).eval blocks =
    match (foundOf sh layout blocks ⟨none, false⟩ (List.range layout.copies)) with
    | ⟨none, blank⟩ => if blank then .ok (new sh, true) else .error .corruptManifest
    | ⟨some (seq, start, count), _⟩ => ((decodeCopy sh seq start count).eval blocks).map (·, false) := by
  have hloop : ((List.range layout.copies).foldlM (fun (f : Found) k => do
      let p ← probeCopy sh (layout.copyStart k (maxBlocks sh)) (maxBlocks sh)
      return f.note (layout.copyStart k (maxBlocks sh)) p) ⟨none, false⟩).eval blocks =
      .ok (foundOf sh layout blocks ⟨none, false⟩ (List.range layout.copies)) := by
    refine Reads.eval_foldlM ?_ _
    intro f k _
    rw [Reads.eval_bind, eval_probeOf]
    rfl
  rw [recoverFrom, Reads.eval_bind, hloop, Except.bind]
  rcases foundOf sh layout blocks ⟨none, false⟩ (List.range layout.copies) with ⟨_ | ⟨s, st, c⟩, b⟩
  · cases b <;> rfl
  · dsimp only
    rw [Reads.eval_bind]
    cases (decodeCopy sh s st c).eval blocks <;> rfl

/-- Older copies do not displace a best copy below `seq`, nor the one with `seq`. -/
private theorem foundOf_older {f : Found} {ks : List Nat}
    (h : ∀ k ∈ ks, ∀ s c, probeOf sh layout blocks k = .intact s c → s < seq) :
    ((∀ b ∈ f.best, b.1 < seq) → ∀ b ∈ (foundOf sh layout blocks f ks).best, b.1 < seq) ∧
      ∀ st c, f.best = some (seq, st, c) → (foundOf sh layout blocks f ks).best = some (seq, st, c) := by
  induction ks generalizing f with
  | nil => exact ⟨id, fun st c => id⟩
  | cons k ks ih =>
    obtain ⟨h1, h2⟩ := @ih (f.note (layout.copyStart k (maxBlocks sh)) (probeOf sh layout blocks k))
      fun k' hk' => h k' (by simp [hk'])
    have hk := h k (by simp)
    refine ⟨fun hb => h1 ?_, fun st c hb => h2 st c ?_⟩
    · rcases hp : probeOf sh layout blocks k with ⟨s, c⟩ | _ | _
      · simp only [Found.note]
        split
        · simpa using hk s c hp
        · exact hb
      · exact hb
      · exact hb
    · rcases hp : probeOf sh layout blocks k with ⟨s, c'⟩ | _ | _
      · have := hk s c' hp
        simp only [Found.note, hb, Option.all_some, decide_eq_true_eq]
        rw [if_neg (by omega)]
      · exact hb
      · exact hb

theorem recoverFrom_newest {k : Nat} (hk : k < layout.copies)
    (hcopy : CopyIs sh blocks (layout.copyStart k (maxBlocks sh)) seq cs) (hle : cs.length ≤ maxBlocks sh)
    (hothers : ∀ k' < layout.copies, k' ≠ k → ∀ s c, probeOf sh layout blocks k' = .intact s c → s < seq) :
    (recoverFrom sh layout).eval blocks =
      ((decodeCopy sh seq (layout.copyStart k (maxBlocks sh)) cs.length).eval blocks).map (·, false) := by
  have hprobe : probeOf sh layout blocks k = .intact seq cs.length := by
    rw [probeOf, hcopy.eval_probeCopy hle]
  have hrange : List.range layout.copies = List.range k ++ k :: (List.range' (k + 1) (layout.copies - k - 1)) := by
    rw [List.range_eq_range', List.range_eq_range', show layout.copies = k + (1 + (layout.copies - k - 1)) by omega,
      ← List.range'_append_1, ← List.range'_append_1]
    simp
  have hbest : (foundOf sh layout blocks ⟨none, false⟩ (List.range layout.copies)).best =
      some (seq, layout.copyStart k (maxBlocks sh), cs.length) := by
    rw [foundOf, hrange, List.foldl_append, List.foldl_cons]
    have hpre : ∀ b ∈ (foundOf sh layout blocks ⟨none, false⟩ (List.range k)).best, b.1 < seq :=
      (foundOf_older fun k' hk' => hothers k' (by have := List.mem_range.mp hk'; omega)
        (by have := List.mem_range.mp hk'; omega)).1 (by simp)
    refine (foundOf_older (fun k' hk' => ?_)).2 _ _ ?_
    · rw [List.mem_range'_1] at hk'
      exact hothers k' (by omega) (by omega)
    · change (Found.note (foundOf sh layout blocks ⟨none, false⟩ (List.range k)) _ _).best = _
      simp only [hprobe, Found.note]
      rw [if_pos]
      rcases hb : (foundOf sh layout blocks ⟨none, false⟩ (List.range k)).best with _ | b
      · rfl
      · simpa using hpre b hb
  rw [eval_recoverFrom]
  rcases hf : foundOf sh layout blocks ⟨none, false⟩ (List.range layout.copies) with ⟨best, blank⟩
  rw [hf] at hbest
  dsimp only at hbest
  subst hbest
  rfl

theorem recoverFrom_fresh (hnone : ∀ k < layout.copies, ∀ s c, probeOf sh layout blocks k ≠ .intact s c)
    (hblank : ∃ k < layout.copies, isBlank (blocks (layout.copyStart k (maxBlocks sh))) = true) :
    (recoverFrom sh layout).eval blocks = .ok (new sh, true) := by
  have hfold : ∀ (ks : List Nat) (f : Found), (∀ k ∈ ks, k < layout.copies) → f.best = none →
      (foundOf sh layout blocks f ks).best = none ∧
        ((f.blank = true ∨ ∃ k ∈ ks, probeOf sh layout blocks k = .blank) → (foundOf sh layout blocks f ks).blank = true) := by
    intro ks
    induction ks with
    | nil => exact fun f _ hf => ⟨hf, by simp [foundOf]⟩
    | cons k ks ih =>
      intro f hks hf
      have hstep := ih (f.note (layout.copyStart k (maxBlocks sh)) (probeOf sh layout blocks k))
        fun k' hk' => hks k' (by simp [hk'])
      rcases hp : probeOf sh layout blocks k with ⟨s, c⟩ | _ | _
      · exact absurd hp (hnone k (hks k (by simp)) s c)
      · rw [hp] at hstep
        have := hstep hf
        simp only [foundOf, List.foldl_cons, hp] at this ⊢
        exact ⟨this.1, fun _ => this.2 (Or.inl rfl)⟩
      · rw [hp] at hstep
        have := hstep hf
        simp only [foundOf, List.foldl_cons, hp] at this ⊢
        refine ⟨this.1, ?_⟩
        rintro (hb | ⟨k', hk', hb⟩)
        · exact this.2 (Or.inl hb)
        · rcases List.mem_cons.mp hk' with rfl | hk'
          · simp [hp] at hb
          · exact this.2 (Or.inr ⟨k', hk', hb⟩)
  obtain ⟨k, hk, hb⟩ := hblank
  obtain ⟨h1, h2⟩ := hfold (List.range layout.copies) ⟨none, false⟩ (fun k hk => List.mem_range.mp hk) rfl
  have h3 := h2 (Or.inr ⟨k, List.mem_range.mpr hk, probeOf_blank.mpr hb⟩)
  rw [eval_recoverFrom]
  rcases hf : foundOf sh layout blocks ⟨none, false⟩ (List.range layout.copies) with ⟨best, blank⟩
  rw [hf] at h1 h3
  dsimp only at h1 h3
  subst h1 h3
  rfl

end Manifest

end Horton
