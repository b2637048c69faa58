import Horton.Manifest.Crash
import Mathlib.Algebra.Order.BigOperators.Group.List

/-!
# Memory and device agree on an edit

A commit streams the manifest as the edit would leave it, block by block, and only then edits the manifest in memory.
Decoding the blocks gives back the manifest in memory, as long as the edit stamps one table and the level that gets the
added ref is still in order.  The other way round, a copy that recovery accepts is the encoding of the manifest it returns,
but for the bytes behind the checksums of its blocks, which nothing checks.
-/

namespace Horton

open BlockDev Reader

namespace Manifest

variable {sh : Shape} {blocks : Nat → Bytes} {start seq count : Nat} {cs : List Bytes} {m : Manifest} {e : ManifestEdit}

/-! ### Accepted copies have no empty chunk -/

/-- The block that the source has loaded, if any, is not empty. -/
def Loaded (cs : List Bytes) (src : BlockSource) : Prop :=
  src.next ≤ cs.length ∧ ∀ n c, src.next = n + 1 → cs[n]? = some c → c ≠ []

/-- Only the last chunk of a copy can be empty, and a source that has loaded it finds no block to read on from. -/
private theorem takeLoop_loaded (hcopy : CopyIs sh blocks start seq cs) (fuel need : Nat) {src src' : BlockSource} {b : Bytes}
    (h : Loaded cs src ∨ (need ≠ 0 ∧ src.off = src.len ∧ src.next = cs.length))
    (hr : (takeLoop start cs.length fuel need src).eval blocks = .ok (b, src')) : Loaded cs src' := by
  induction fuel generalizing need src b with
  | zero => cases hr
  | succ fuel ih =>
    rw [takeLoop] at hr
    split at hr
    · rename_i h0
      obtain ⟨-, rfl⟩ := Prod.mk.inj (Except.ok.inj hr)
      exact h.resolve_right fun hc => hc.1 h0
    · rename_i hneed
      split at hr
      · split at hr
        · cases hr
        · rename_i hnext
          have hload := h.resolve_right fun hc => hnext hc.2.2
          have hlt : src.next < cs.length := by have := hload.1; omega
          have hget : cs[src.next]? = some cs[src.next] := List.getElem?_eq_getElem hlt
          obtain ⟨hcheck, -⟩ := content_eq_some (hcopy.block _ _ hget)
          rw [Reads.eval_bind, Reads.eval_block, Except.bind] at hr
          simp only [hcheck, ne_eq, not_true, if_false] at hr
          refine ih need ?_ hr
          by_cases hempty : cs[src.next] = []
          · have hlast : src.next + 1 = cs.length := by
              by_contra hne
              have := hcopy.full _ _ hget (by omega)
              rw [hempty] at this
              exact absurd this (chunk_pos sh).ne
            exact Or.inr ⟨hneed, by simp [hempty], hlast⟩
          · refine Or.inl ⟨hlt, fun n c hn hc => ?_⟩
            obtain rfl : src.next = n := by simpa using hn
            rw [hget] at hc
            exact Option.some.inj hc ▸ hempty
      · rename_i hoff
        have hload := h.resolve_right fun hc => hoff hc.2.1
        rw [Reads.eval_bind] at hr
        rcases hx : (takeLoop start cs.length fuel (need - min (src.len - src.off) need)
          { src with off := src.off + min (src.len - src.off) need }).eval blocks with x | ⟨rest, src₁⟩
        · rw [hx] at hr
          cases hr
        · rw [hx] at hr
          obtain ⟨-, rfl⟩ := Prod.mk.inj (Except.ok.inj hr)
          have hload' : Loaded cs { src with off := src.off + min (src.len - src.off) need } := hload
          exact ih _ (Or.inl hload') hx

/-- A copy that decodes has a byte in every block. -/
private theorem chunks_ne_nil (hcopy : CopyIs sh blocks start seq cs)
    (hr : (decodeCopy sh seq start cs.length).eval blocks = .ok m) : ∀ c ∈ cs, c ≠ [] := by
  rw [decodeCopy, Reads.eval_bind] at hr
  rcases hx : ((decodeBody sh).stream (takeBytes start cs.length) .corruptManifest ⟨0, 0, 0, []⟩).eval blocks with x | ⟨out, src⟩
  · rw [hx] at hr
    cases hr
  · rw [hx, Except.bind] at hr
    dsimp only at hr
    split at hr
    · cases hr
    · rename_i hend
      simp only [not_or, not_not] at hend
      have hload : Loaded cs src := by
        refine stream_keeps (fun n s b s' hs he => ?_) (decodeBody sh) ⟨Nat.zero_le _, fun n c hn => by cases hn⟩ hx
        exact takeLoop_loaded hcopy _ n (Or.inl hs) he
      intro c hc
      obtain ⟨i, hi, rfl⟩ := List.mem_iff_getElem.mp hc
      rcases Nat.lt_or_ge (i + 1) cs.length with hlt | hge
      · have := hcopy.full i _ (List.getElem?_eq_getElem hi) hlt
        exact List.ne_nil_of_length_pos (by rw [this]; exact chunk_pos sh)
      · exact hload.2 i _ (by omega) (List.getElem?_eq_getElem hi)

/-! ### From the edit to the device and back -/

/-- The blocks from `start` on are the copy that a commit of `e` writes. -/
def Streamed (sh : Shape) (m : Manifest) (e : ManifestEdit) (blocks : Nat → Bytes) (start : Nat) : Prop :=
  ∀ i < blocksFor sh (m.viewBodyLen sh e), encodeViewBlock sh m e (m.seq + 1) i = .ok (blocks (start + i))

/-- What the checksum of block `i` of a copy of `m` covers, and the checksum. -/
def coveredLen (sh : Shape) (m : Manifest) (i : Nat) : Nat := 28 + (chunkAt sh (encodeBody m) i).length

/-- The blocks from `start` on are the encoding of `m`, up to what stands behind the checksums. -/
def Encodes (sh : Shape) (m : Manifest) (blocks : Nat → Bytes) (start : Nat) : Prop :=
  ∀ i < blocksFor sh (m.viewBodyLen sh ManifestEdit.EMPTY), ∃ b, encodeViewBlock sh m ManifestEdit.EMPTY m.seq i = .ok b ∧
    (blocks (start + i)).take (coveredLen sh m i) = b.take (coveredLen sh m i)

/-- The blocks of an accepted edit decode to the manifest as the edit would leave it. -/
private theorem decodeCopy_streamed (hm : m.WF sh) (he : e.WF sh) (hc : m.checkEdit sh e = .ok ())
    (hseq : m.seq + 1 ≤ U64_MAX) (h : Streamed sh m e blocks start) :
    (probeCopy sh start (maxBlocks sh)).eval blocks =
        .ok (.intact (m.seq + 1) (blocksFor sh (m.viewBodyLen sh e))) ∧
      (decodeCopy sh (m.seq + 1) start (blocksFor sh (m.viewBodyLen sh e))).eval blocks = .ok (m.view sh e) := by
  have hbody := isBody_writeBody hm he hc
  rw [Streamed, ← length_writeBody] at h
  have hcopy : CopyIs sh blocks start (m.seq + 1) (chunksOf sh (writeBody sh m e)) := by
    refine hbody.copyIs (by rw [U64_MAX] at hseq; omega) ?_
    intro i hi
    rw [Except.ok.inj ((h i hi).symm.trans (encodeViewBlock_ok hbody _ hi))]
  have hlen := @length_chunksOf sh (writeBody sh m e)
  constructor
  · rw [hcopy.eval_probeCopy (by rw [hlen]; exact hbody.blocksFor_le), hlen, length_writeBody]
  · rw [← length_writeBody, ← hlen, eval_decodeCopy hcopy, hbody.flatten_chunksOf, writeBody_eq,
      decodeBody_encodeBody (view_wf hm he hc)]
    · rfl
    · intro c hcm
      obtain ⟨i, hi, rfl⟩ := List.mem_map.mp hcm
      exact hbody.chunkAt_ne_nil (List.mem_range.mp hi)

private theorem viewFrom_EMPTY (li pos : Nat) (ts : List TableRef) :
    viewFrom ManifestEdit.EMPTY li pos ts none = ts := by
  induction ts generalizing pos with
  | nil => rfl
  | cons t ts ih =>
    rw [viewFrom, ih]
    simp [ManifestEdit.EMPTY, bit, viewRef]

/-- An empty edit writes the manifest as it stands. -/
private theorem writeBody_EMPTY (hl : m.levels.length = sh.LEVELS) : writeBody sh m ManifestEdit.EMPTY = encodeBody m := by
  have hlevels : (m.view sh ManifestEdit.EMPTY).levels = m.levels := by
    refine List.ext_getElem? fun i => ?_
    rw [view, List.getElem?_map]
    rcases Nat.lt_or_ge i sh.LEVELS with hi | hi
    · rw [List.getElem?_range hi, List.getElem?_eq_getElem (by omega), Option.map_some]
      show some (viewFrom _ _ _ (m.level i) none) = _
      rw [viewFrom_EMPTY, level, List.getD_eq_getElem?_getD, List.getElem?_eq_getElem (by omega)]
      rfl
    · rw [List.getElem?_eq_none (by simpa using hi), List.getElem?_eq_none (by omega)]
      rfl
  rw [writeBody_eq, encodeBody, hlevels, encodeBody]
  simp [view, ManifestEdit.EMPTY]

/-- A copy with a byte in every block has as many blocks as its body takes. -/
private theorem blocksFor_flatten (hcs : CopyIs sh blocks start seq cs) (hne : ∀ c ∈ cs, c ≠ [])
    (hle : ∀ c ∈ cs, c.length ≤ chunk sh) (hbody : IsBody sh cs.flatten) : blocksFor sh cs.flatten.length = cs.length := by
  have hpos := List.length_pos_of_ne_nil hcs.ne_nil
  have hlast : cs.length - 1 < blocksFor sh cs.flatten.length := by
    have hget : cs[cs.length - 1]? = some (cs[cs.length - 1]) := List.getElem?_eq_getElem (by omega)
    have hlen := List.length_pos_of_ne_nil (hne _ (List.mem_of_getElem? hget))
    rw [← chunkAt_flatten hcs.full hle hget, length_chunkAt] at hlen
    rw [hbody.lt_blocksFor]
    omega
  have hsum : cs.flatten.length ≤ cs.length * chunk sh := by
    have hsum : (cs.map List.length).sum ≤ (cs.map fun _ => chunk sh).sum := List.sum_le_sum hle
    rw [List.length_flatten]
    simpa using hsum
  have hend := (hbody.lt_blocksFor (i := cs.length)).not.mpr (by omega)
  omega

/-- Two blocks that pass their check with one content agree up to their checksums. -/
private theorem take_eq_of_content {buf buf' : Bytes} {h : BlockHead} {c : Bytes} (h₁ : content buf = some (h, c))
    (h₂ : content buf' = some (h, c)) : buf.take (28 + c.length) = buf'.take (28 + c.length) := by
  rw [length_content h₁]
  obtain ⟨hc₁, hd₁⟩ := content_eq_some h₁
  obtain ⟨hc₂, hd₂⟩ := content_eq_some h₂
  rw [take_of_checkBlock hc₁, take_of_checkBlock hc₂, hd₁, hd₂]

/-- A copy that recovery accepts is the encoding of the manifest it decodes to. -/
private theorem encodes_of_decodeCopy (hsize : ∀ j, (blocks j).length = sh.BLOCK)
    (hp : (probeCopy sh start (maxBlocks sh)).eval blocks = .ok (.intact seq count))
    (hd : (decodeCopy sh seq start count).eval blocks = .ok m) :
    m.WF sh ∧ m.seq = seq ∧ count = blocksFor sh (m.viewBodyLen sh ManifestEdit.EMPTY) ∧ Encodes sh m blocks start := by
  obtain ⟨cs, hcs, rfl, -⟩ := copyIs_of_intact hp
  have hne := chunks_ne_nil hcs hd
  rw [eval_decodeCopy hcs hne] at hd
  rcases hx : (decodeBody sh).onSlice cs.flatten with _ | ⟨m₀, rest⟩
  · rw [hx] at hd
    cases hd
  · rw [hx] at hd
    rcases rest with _ | ⟨r, rest⟩
    · obtain ⟨hflat, -, hwf⟩ := inverts_decodeBody.exact _ _ _ hx
      rw [List.append_nil] at hflat
      obtain rfl := Except.ok.inj hd
      have hm : ({ m₀ with seq := seq } : Manifest).WF sh :=
        ⟨hwf.walHead_lt, hwf.nextTableId_lt, hwf.flushedSeq_lt, hwf.seqHigh_lt, hwf.length_levels, hwf.levels_ok⟩
      have hbody := isBody_encodeBody hm
      have hflat' : cs.flatten = encodeBody { m₀ with seq := seq } := hflat
      have hwrite := @writeBody_EMPTY sh { m₀ with seq := seq } hm.length_levels
      have hle : ∀ c ∈ cs, c.length ≤ chunk sh := by
        intro c hc
        obtain ⟨i, hi, rfl⟩ := List.mem_iff_getElem.mp hc
        have hcont := hcs.block i _ (List.getElem?_eq_getElem hi)
        have := (le_length_of_content hcont).1
        rw [hsize] at this
        rw [chunk]
        dsimp only at this
        omega
      have hcount : blocksFor sh (encodeBody { m₀ with seq := seq }).length = cs.length := by
        rw [← hflat']
        exact blocksFor_flatten hcs hne hle (hflat' ▸ hbody)
      refine ⟨hm, rfl, ?_, ?_⟩
      · rw [← length_writeBody, hwrite, hcount]
      · intro i hi
        rw [← length_writeBody, hwrite] at hi
        have hget : cs[i]? = some cs[i] := List.getElem?_eq_getElem (hcount ▸ hi)
        have hchunk : chunkAt sh (encodeBody { m₀ with seq := seq }) i = cs[i] := by
          rw [← hflat']
          exact chunkAt_flatten hcs.full hle hget
        refine ⟨_, encodeViewBlock_ok (hwrite ▸ hbody) seq (hwrite ▸ hi), ?_⟩
        rw [coveredLen, hchunk, hwrite]
        refine take_eq_of_content (hcs.block i _ hget) ?_
        have hseq : seq < 2 ^ 64 := (le_length_of_content (hcs.block i _ hget)).2
        rw [hbody.content_copyBlock hseq hi, hchunk, hcount]
    · cases hd

/-- The best copy found is one that the probe of a copy accepted. -/
private theorem foundOf_best {layout : ManifestLayout} (ks : List Nat) {f : Found}
    (h : ∀ b ∈ f.best, (probeCopy sh b.2.1 (maxBlocks sh)).eval blocks = .ok (.intact b.1 b.2.2)) :
    ∀ b ∈ (foundOf sh layout blocks f ks).best, (probeCopy sh b.2.1 (maxBlocks sh)).eval blocks = .ok (.intact b.1 b.2.2) := by
  induction ks generalizing f with
  | nil => exact h
  | cons k ks ih =>
    refine ih ?_
    have hprobe := @eval_probeOf sh blocks layout k
    dsimp only
    cases hp : probeOf sh layout blocks k with
    | blank => exact h
    | corrupt => exact h
    | intact s c =>
      rw [hp] at hprobe
      intro b hb
      unfold Found.note at hb
      dsimp only at hb
      split at hb
      · obtain rfl := Option.some.inj hb
        exact hprobe
      · exact h b hb

/-- What recovery returns is well-formed, whatever the blocks hold. -/
theorem recoverFrom_wf {layout : ManifestLayout} (hsize : ∀ j, (blocks j).length = sh.BLOCK) {r : Manifest × Bool}
    (h : (recoverFrom sh layout).eval blocks = .ok r) : r.1.WF sh := by
  rw [eval_recoverFrom] at h
  have hbest := @foundOf_best sh blocks layout (List.range layout.copies) ⟨none, false⟩ (by simp)
  rcases hf : foundOf sh layout blocks ⟨none, false⟩ (List.range layout.copies) with ⟨_ | ⟨s, st, c⟩, blank⟩
  · rw [hf] at h
    dsimp only at h
    split at h
    · obtain rfl := Except.ok.inj h
      exact @wf_new sh 0 (by omega)
    · cases h
  · rw [hf] at h hbest
    have hprobe := hbest (s, st, c) rfl
    dsimp only at h hprobe
    cases hd : (decodeCopy sh s st c).eval blocks with
    | error x => rw [hd] at h; cases h
    | ok m =>
      rw [hd] at h
      obtain rfl := Except.ok.inj h
      exact (encodes_of_decodeCopy hsize hprobe hd).1

/-- The blocks of an edit decode to the manifest it leaves in memory, and an accepted copy is the encoding of the manifest
that recovery returns, up to what stands behind the checksums. -/
theorem copy_agrees_with_memory (sh : Shape) :
    (∀ (m : Manifest) (e : ManifestEdit), m.WF sh → e.WF sh → m.checkEdit sh e = .ok () → m.seq + 1 ≤ U64_MAX →
      m.StampsOne e → m.InOrder e →
        blocksFor sh (m.viewBodyLen sh e) ≤ maxBlocks sh ∧
        (∀ i < blocksFor sh (m.viewBodyLen sh e), ∃ b, encodeViewBlock sh m e (m.seq + 1) i = .ok b ∧ b.length = sh.BLOCK) ∧
        ∀ blocks start, Streamed sh m e blocks start →
          (probeCopy sh start (maxBlocks sh)).eval blocks =
              .ok (.intact (m.seq + 1) (blocksFor sh (m.viewBodyLen sh e))) ∧
            (decodeCopy sh (m.seq + 1) start (blocksFor sh (m.viewBodyLen sh e))).eval blocks =
              .ok { m.applyChecked e with seq := m.seq + 1 }) ∧
    ∀ (blocks : Nat → Bytes) (start seq count : Nat) (m : Manifest), (∀ j, (blocks j).length = sh.BLOCK) →
      (probeCopy sh start (maxBlocks sh)).eval blocks = .ok (.intact seq count) →
      (decodeCopy sh seq start count).eval blocks = .ok m →
        m.WF sh ∧ m.seq = seq ∧ count = blocksFor sh (m.viewBodyLen sh ManifestEdit.EMPTY) ∧ Encodes sh m blocks start := by
  constructor
  · intro m e hm he hc hseq hst hord
    have hbody := isBody_writeBody hm he hc
    refine ⟨?_, ?_, ?_⟩
    · rw [← length_writeBody]
      exact hbody.blocksFor_le
    · intro i hi
      rw [← length_writeBody] at hi
      exact ⟨_, encodeViewBlock_ok hbody _ hi, length_sealBlock (hbody.chunkAt_fits i).1⟩
    · intro blocks start hs
      rw [applyChecked_eq_view_of_stampsOne hm.length_levels hst hord]
      exact decodeCopy_streamed hm he hc hseq hs
  · intro blocks start seq count m hsize hp hd
    exact encodes_of_decodeCopy hsize hp hd

/-! ### Edits of a small manifest -/

/-- A table of four blocks that holds `key` only. -/
def oneKeyTable (id : Nat) (key : Bytes) : TableRef := ⟨id, 20 + 4 * id, 4, key, key, 1, 1, 1, 0, 0, 0⟩

/-- Two tables at level 1, the second with id `id`. -/
def twoTables (id : Nat) : Manifest := ⟨1, 10, 2, 1, 1, [[], [oneKeyTable 0 [1], oneKeyTable id [2]]]⟩

/-- Moves the first key of the first table to `key`, stamps table `id` and adds a table. -/
def narrowEdit (key : Bytes) (id : Nat) : ManifestEdit :=
  { ManifestEdit.EMPTY with
    narrowed := 1
    narrowTo := key
    nextTableId := 3
    added := some (1, oneKeyTable 2 [5])
    stamped := some (id, 7, 70) }

/-- The blocks that the commit of an edit writes, from block 0 on. -/
def streamedBlocks (m : Manifest) (e : ManifestEdit) (j : Nat) : Bytes :=
  (encodeViewBlock .small m e (m.seq + 1) j).toOption.getD (Bytes.zeros 512)

private theorem oneKeyTable_wf {id : Nat} {key : Bytes} (hid : id < 1000) (hk : key.length ≤ 16) :
    (oneKeyTable id key).WF .small :=
  ⟨by simp [oneKeyTable]; omega, by simp [oneKeyTable]; omega, by simp [oneKeyTable], hk, hk, by simp [oneKeyTable],
    by simp [oneKeyTable], by simp [oneKeyTable], by simp [oneKeyTable], by simp [oneKeyTable], by simp [oneKeyTable]⟩

private theorem twoTables_wf {id : Nat} (hid : id < 1000) : (twoTables id).WF .small := by
  refine ⟨by simp [twoTables], by simp [twoTables], by simp [twoTables], by simp [twoTables], rfl, by simp, by decide, by simp,
    by simp, ?_, ?_, trivial⟩
  · exact show 0 + 0 + 2 ≤ CAPACITY .small by decide
  · simp only [List.mem_cons, List.not_mem_nil, or_false, forall_eq_or_imp, forall_eq]
    exact ⟨oneKeyTable_wf (by omega) (by decide), oneKeyTable_wf hid (by decide)⟩

private theorem narrowEdit_wf {key : Bytes} {id : Nat} (hk : key.length ≤ 16) : (narrowEdit key id).WF .small := by
  refine ⟨by simp [narrowEdit, ManifestEdit.EMPTY], by simp [narrowEdit, ManifestEdit.EMPTY],
    by simp [narrowEdit, ManifestEdit.EMPTY], by simp [narrowEdit], by simp [narrowEdit, ManifestEdit.EMPTY], hk, ?_,
    by simp [narrowEdit]⟩
  simp only [narrowEdit, Option.mem_some_iff, forall_eq']
  exact oneKeyTable_wf (by omega) (by decide)

private theorem streamed_streamedBlocks (hm : m.WF .small) (he : e.WF .small) (hc : m.checkEdit .small e = .ok ()) :
    Streamed .small m e (streamedBlocks m e) 0 := by
  intro i hi
  rw [← length_writeBody] at hi
  rw [streamedBlocks, Nat.zero_add, encodeViewBlock_ok (isBody_writeBody hm he hc) _ hi]
  rfl

/-- An edit that moves the first key within its table. -/
theorem copy_agrees_with_memory_in_order :
    (decodeCopy .small 2 0 1).eval (streamedBlocks (twoTables 1) (narrowEdit [1, 1] 1)) =
        .ok { (twoTables 1).applyChecked (narrowEdit [1, 1] 1) with seq := 2 } ∧
      Encodes .small { (twoTables 1).applyChecked (narrowEdit [1, 1] 1) with seq := 2 }
        (streamedBlocks (twoTables 1) (narrowEdit [1, 1] 1)) 0 := by
  have hm := @twoTables_wf 1 (by decide)
  have he := @narrowEdit_wf [1, 1] 1 (by decide)
  have hc : (twoTables 1).checkEdit .small (narrowEdit [1, 1] 1) = .ok () := by decide
  obtain ⟨-, hall, hagree⟩ := (copy_agrees_with_memory .small).1 (twoTables 1) (narrowEdit [1, 1] 1) hm he hc (by decide)
    (by unfold StampsOne; decide) (by unfold InOrder; decide)
  obtain ⟨hp, hd⟩ := hagree _ 0 (streamed_streamedBlocks hm he hc)
  have hn : blocksFor .small ((twoTables 1).viewBodyLen .small (narrowEdit [1, 1] 1)) = 1 := by decide
  have hsize : ∀ j, (streamedBlocks (twoTables 1) (narrowEdit [1, 1] 1) j).length = Shape.small.BLOCK := by
    intro j
    rw [streamedBlocks]
    rcases Nat.lt_or_ge j 1 with hj | hj
    · obtain ⟨b, hb, hlen⟩ := hall j (by omega)
      rw [hb]
      exact hlen
    · rw [encodeViewBlock]
      dsimp only
      rw [hn, if_pos hj]
      exact Bytes.length_zeros 512
  rw [hn] at hp hd
  exact ⟨hd, ((copy_agrees_with_memory .small).2 _ 0 2 1 _ hsize hp hd).2.2.2⟩

/-- Moving the first key of a table past its neighbour puts the added ref at another place on the device than in memory;
a stamp for an id that two tables have goes to both on the device and to one in memory; and a copy with a byte behind its
checksum is accepted. -/
theorem copy_differs_from_memory :
    (∃ m e, (m.level 1).Pairwise (·.firstKey < ·.firstKey) ∧ m.checkEdit .small e = .ok () ∧ m.StampsOne e ∧
      Streamed .small m e (streamedBlocks m e) 0 ∧
      (decodeCopy .small 2 0 1).eval (streamedBlocks m e) ≠ .ok { m.applyChecked e with seq := 2 }) ∧
    (∃ m e, (m.level 1).Pairwise (·.firstKey < ·.firstKey) ∧ m.checkEdit .small e = .ok () ∧ m.InOrder e ∧
      Streamed .small m e (streamedBlocks m e) 0 ∧
      (decodeCopy .small 2 0 1).eval (streamedBlocks m e) ≠ .ok { m.applyChecked e with seq := 2 }) ∧
    ∃ b, b.length = 512 ∧ (probeCopy .small 0 (maxBlocks .small)).eval (fun _ => b) = .ok (.intact 1 1) ∧
      (decodeCopy .small 1 0 1).eval (fun _ => b) = .ok (twoTables 1) ∧
      encodeViewBlock .small (twoTables 1) ManifestEdit.EMPTY 1 0 ≠ .ok b := by
  refine ⟨⟨twoTables 1, narrowEdit [9] 1, by decide, by decide, by unfold StampsOne; decide, ?_⟩,
    ⟨twoTables 0, narrowEdit [1, 1] 0, by decide, by decide, by unfold InOrder; decide, ?_⟩, ?_⟩
  · have hs := streamed_streamedBlocks (@twoTables_wf 1 (by decide)) (@narrowEdit_wf [9] 1 (by decide)) (by decide)
    have hd := (decodeCopy_streamed (twoTables_wf (by decide)) (narrowEdit_wf (by decide)) (by decide) (by decide) hs).2
    rw [show blocksFor .small ((twoTables 1).viewBodyLen .small (narrowEdit [9] 1)) = 1 by decide] at hd
    refine ⟨hs, ?_⟩
    rw [show (2 : Nat) = (twoTables 1).seq + 1 from rfl, hd]
    decide
  · have hs := streamed_streamedBlocks (@twoTables_wf 0 (by decide)) (@narrowEdit_wf [1, 1] 0 (by decide)) (by decide)
    have hd := (decodeCopy_streamed (twoTables_wf (by decide)) (narrowEdit_wf (by decide)) (by decide) (by decide) hs).2
    rw [show blocksFor .small ((twoTables 0).viewBodyLen .small (narrowEdit [1, 1] 0)) = 1 by decide] at hd
    refine ⟨hs, ?_⟩
    rw [show (2 : Nat) = (twoTables 0).seq + 1 from rfl, hd]
    decide
  · refine ⟨(copyBlock .small (encodeBody (twoTables 1)) 1 0).dropLast ++ [1], ?_, ?_, ?_, ?_⟩
    · decide +kernel
    · decide +kernel
    · decide +kernel
    · decide +kernel

end Manifest

end Horton
