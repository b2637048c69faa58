import Horton.Manifest.Crash

/-!
# A failed commit and the next one

A commit that fails leaves `seq` and the copy index where they were, so the next commit writes the same blocks with the same
`seq`.  When power is cut inside that one, the copy holds a head of the second commit and a tail of the first, and nothing
in the block headers tells them apart if both copies have the same number of blocks.  `RetrySafe` is what recovery should
guarantee; it holds exactly when the two copies differ in length or in at most one block (`SafeRetry`).
-/

namespace Horton

open BlockDev

namespace Manifest

/-- The device holds `m` as its newest manifest, and only older blocks in the other copies. -/
structure Stands (sh : Shape) (layout : ManifestLayout) (blocks : Nat → Bytes) (m : Manifest) : Prop where
  fresh : m.seq = 0 → isBlank (blocks (layout.copyStart 0 (maxBlocks sh))) = true
  current : m.seq ≠ 0 → ∀ i < blocksFor sh (encodeBody m).length,
    content (blocks (layout.copyStart (m.seq % layout.copies) (maxBlocks sh) + i)) =
      content (copyBlock sh (encodeBody m) m.seq i)
  older : ∀ k < layout.copies, (m.seq ≠ 0 → k ≠ m.seq % layout.copies) → ∀ i < maxBlocks sh, ∀ h,
    checkBlock (blocks (layout.copyStart k (maxBlocks sh) + i)) = some h → h.seq < m.seq

/-- A block that was not written whole does not pass its check: its content is the one it started with or one that was
handed to the device for this place. -/
def NoForgedBlock (blocks : Nat → Bytes) (d : Device) : Prop :=
  ∀ j x, content (d.blocks j) = some x → content (blocks j) = some x ∨ ∃ w ∈ d.writes, w.block = j ∧ content w.data = some x

/-- A commit that the caller sees fail, or never sees end. -/
def CommitFailed : Outcome Error Unit → Prop
  | .err e => e = .device
  | .dropped => True
  | _ => False

/-- However the commit of `e₁` fails and wherever power is cut in the commit of `e₂` after it, recovery returns the old
manifest, the one with `e₁` or the one with `e₂`. -/
def RetrySafe (sh : Shape) (layout : ManifestLayout) (d : Device) (m : Manifest) (e₁ e₂ : ManifestEdit) : Prop :=
  ∀ f₁ f₂ o₁ m₁ d₁ m₂ d₂, commitEdit sh layout e₁ m { d with fates := f₁ } = (o₁, m₁, d₁) → CommitFailed o₁ →
    commitEdit sh layout e₂ m₁ { d₁ with fates := f₂ } = (.cut, m₂, d₂) → NoForgedBlock d.blocks d₂ →
    ∃ r, (recoverFrom sh layout).eval d₂.blocks = .ok r ∧
      (r = recovered sh m ∨ r = (m.view sh e₁, false) ∨ r = (m.view sh e₂, false))

/-- The two copies differ in their number of blocks or in at most one block. -/
def SafeRetry (sh : Shape) (m : Manifest) (e₁ e₂ : ManifestEdit) : Prop :=
  blocksFor sh (writeBody sh m e₁).length ≠ blocksFor sh (writeBody sh m e₂).length ∨
    ∀ p q, p < q → q < blocksFor sh (writeBody sh m e₁).length →
      chunkAt sh (writeBody sh m e₁) p = chunkAt sh (writeBody sh m e₂) p ∨
        chunkAt sh (writeBody sh m e₁) q = chunkAt sh (writeBody sh m e₂) q

instance (sh : Shape) (m : Manifest) (e₁ e₂ : ManifestEdit) : Decidable (SafeRetry sh m e₁ e₂) :=
  decidable_of_iff (blocksFor sh (writeBody sh m e₁).length ≠ blocksFor sh (writeBody sh m e₂).length ∨
    ∀ q < blocksFor sh (writeBody sh m e₁).length, ∀ p < q,
      chunkAt sh (writeBody sh m e₁) p = chunkAt sh (writeBody sh m e₂) p ∨
        chunkAt sh (writeBody sh m e₁) q = chunkAt sh (writeBody sh m e₂) q)
    (or_congr Iff.rfl ⟨fun h p q hpq hq => h q hq p hpq, fun h q hq p hpq => h p q hpq hq⟩)

/-! ### The copies that no commit touched -/

section Others

variable {sh : Shape} {layout : ManifestLayout} {blocks blocks' : Nat → Bytes} {m : Manifest}

/-- All copies but the one the next commit writes are as they were. -/
def OthersKept (sh : Shape) (layout : ManifestLayout) (m : Manifest) (blocks blocks' : Nat → Bytes) : Prop :=
  ∀ k < layout.copies, k ≠ (m.seq + 1) % layout.copies → ∀ i < maxBlocks sh,
    blocks' (layout.copyStart k (maxBlocks sh) + i) = blocks (layout.copyStart k (maxBlocks sh) + i)

private theorem intact_head {k s c : Nat} (h : probeOf sh layout blocks k = .intact s c) :
    ∃ hd, checkBlock (blocks (layout.copyStart k (maxBlocks sh))) = some hd ∧ hd.seq = s := by
  have heval := @eval_probeOf sh blocks layout k
  rw [h] at heval
  obtain ⟨cs, hcs, -, -⟩ := copyIs_of_intact heval
  have hpos := List.length_pos_of_ne_nil hcs.ne_nil
  have hb := hcs.block 0 cs[0] (List.getElem?_eq_getElem hpos)
  exact ⟨_, (content_eq_some hb).1, rfl⟩

/-- An untouched copy is not newer than the manifest that stands on the device. -/
private theorem Stands.other_le (h : Stands sh layout blocks m) (ho : OthersKept sh layout m blocks blocks') {k : Nat}
    (hk : k < layout.copies) (hne : k ≠ (m.seq + 1) % layout.copies) {s c : Nat}
    (hp : probeOf sh layout blocks' k = .intact s c) (hcur : m.seq ≠ 0 → k ≠ m.seq % layout.copies) : s < m.seq := by
  obtain ⟨hd, hcheck, rfl⟩ := intact_head hp
  have hkept := ho k hk hne 0 (maxBlocks_pos sh)
  simp only [Nat.add_zero] at hkept
  rw [hkept] at hcheck
  exact h.older k hk hcur 0 (maxBlocks_pos sh) hd hcheck

private theorem Stands.copyIs (h : Stands sh layout blocks m) (hm : m.WF sh) (hs : m.seq < 2 ^ 64)
    (ho : OthersKept sh layout m blocks blocks') (h0 : m.seq ≠ 0) :
    CopyIs sh blocks' (layout.copyStart (m.seq % layout.copies) (maxBlocks sh)) m.seq (chunksOf sh (encodeBody m)) := by
  have hbody := isBody_encodeBody hm
  have hc := layout.two_le_copies
  refine hbody.copyIs hs fun i hi => ?_
  have hle := hbody.blocksFor_le
  rw [ho _ (Nat.mod_lt _ (by omega)) (succ_mod_ne hc) i (by omega)]
  exact h.current h0 i hi

/-- When the copy of the next commit is not intact with the next `seq`, recovery returns what stood there. -/
theorem Stands.recover_old (h : Stands sh layout blocks m) (hm : m.WF sh) (hs : m.seq < 2 ^ 64)
    (ho : OthersKept sh layout m blocks blocks')
    (hnew : ∀ s c, probeOf sh layout blocks' ((m.seq + 1) % layout.copies) = .intact s c → s < m.seq) :
    (recoverFrom sh layout).eval blocks' = .ok (recovered sh m) := by
  have hc := layout.two_le_copies
  by_cases h0 : m.seq = 0
  · have hk0 : (m.seq + 1) % layout.copies ≠ 0 := by rw [h0, Nat.zero_add, Nat.mod_eq_of_lt (by omega)]; omega
    have hfresh : ∀ k < layout.copies, ∀ s c, probeOf sh layout blocks' k ≠ .intact s c := by
      intro k hk s c hp
      by_cases hkn : k = (m.seq + 1) % layout.copies
      · subst hkn
        have := hnew s c hp
        omega
      · have := h.other_le ho hk hkn hp (fun hne => absurd h0 hne)
        omega
    rw [recoverFrom_fresh hfresh ⟨0, by omega, ?_⟩, recovered, if_pos h0]
    have hkept := ho 0 (by omega) (Ne.symm hk0) 0 (maxBlocks_pos sh)
    simp only [Nat.add_zero] at hkept
    rw [hkept]
    exact h.fresh h0
  · have hbody := isBody_encodeBody hm
    have hcopy := h.copyIs hm hs ho h0
    rw [recoverFrom_newest (Nat.mod_lt _ (by omega)) hcopy (by rw [length_chunksOf]; exact hbody.blocksFor_le),
      eval_decodeCopy hcopy, hbody.flatten_chunksOf]
    · rw [decodeBody_encodeBody hm, recovered, if_neg h0]
      rfl
    · intro c hcm
      obtain ⟨i, hi, rfl⟩ := List.mem_map.mp hcm
      exact hbody.chunkAt_ne_nil (List.mem_range.mp hi)
    · intro k hk hne s c hp
      by_cases hkn : k = (m.seq + 1) % layout.copies
      · subst hkn
        exact hnew s c hp
      · exact h.other_le ho hk hkn hp fun _ => hne

/-- When the copy of the next commit holds chunks with the next `seq`, recovery decodes them. -/
theorem Stands.recover_new (h : Stands sh layout blocks m) (hm : m.WF sh) (hs : m.seq < 2 ^ 64)
    (ho : OthersKept sh layout m blocks blocks') {cs : List Bytes}
    (hcopy : CopyIs sh blocks' (nextStart sh layout m) (m.seq + 1) cs) (hle : cs.length ≤ maxBlocks sh)
    (hne : ∀ c ∈ cs, c ≠ []) :
    (recoverFrom sh layout).eval blocks' = match (decodeBody sh).onSlice cs.flatten with
      | some (m', []) => .ok ({ m' with seq := m.seq + 1 }, false)
      | _ => .error .corruptManifest := by
  have hc := layout.two_le_copies
  have hothers : ∀ k < layout.copies, k ≠ (m.seq + 1) % layout.copies → ∀ s c,
      probeOf sh layout blocks' k = .intact s c → s < m.seq + 1 := by
    intro k hk hkn s c hp
    by_cases hcur : m.seq ≠ 0 ∧ k = m.seq % layout.copies
    · obtain ⟨h0, rfl⟩ := hcur
      have hcopy' := h.copyIs hm hs ho h0
      have hp' : probeOf sh layout blocks' (m.seq % layout.copies) =
          .intact m.seq (chunksOf sh (encodeBody m)).length := by
        rw [probeOf, hcopy'.eval_probeCopy (by rw [length_chunksOf]; exact (isBody_encodeBody hm).blocksFor_le)]
      rw [hp'] at hp
      obtain ⟨rfl, -⟩ := Probe.intact.inj hp
      omega
    · have := h.other_le ho hk hkn hp fun h0 heq => hcur ⟨h0, heq⟩
      omega
  rw [recoverFrom_newest (Nat.mod_lt _ (by omega)) hcopy hle hothers, show layout.copyStart ((m.seq + 1) % layout.copies)
    (maxBlocks sh) = nextStart sh layout m from rfl, eval_decodeCopy hcopy hne]
  rcases (decodeBody sh).onSlice cs.flatten with _ | ⟨m', _ | ⟨b, rest⟩⟩ <;> rfl

end Others

/-! ### Two commits to the same copy -/

/-- A manifest that stands on the device, and two edits of it that are accepted. -/
structure RetrySetup (sh : Shape) (layout : ManifestLayout) (d : Device) (m : Manifest) (e₁ e₂ : ManifestEdit) : Prop where
  disjoint : layout.Disjoint (maxBlocks sh)
  wf : m.WF sh
  seq_le : m.seq + 1 ≤ U64_MAX
  stands : Stands sh layout d.blocks m
  writes : d.writes = []
  wf₁ : e₁.WF sh
  wf₂ : e₂.WF sh
  accepted₁ : m.checkEdit sh e₁ = .ok ()
  accepted₂ : m.checkEdit sh e₂ = .ok ()

section Retry

variable {sh : Shape} {layout : ManifestLayout} {d d₁ d₂ : Device} {m : Manifest} {e₁ e₂ : ManifestEdit}
  {f₁ f₂ : List Fate} {t₁ k₁ t₂ k₂ : Nat}

namespace RetrySetup

variable (h : RetrySetup sh layout d m e₁ e₂)
include h

theorem body₁ : IsBody sh (writeBody sh m e₁) := isBody_writeBody h.wf h.wf₁ h.accepted₁

theorem body₂ : IsBody sh (writeBody sh m e₂) := isBody_writeBody h.wf h.wf₂ h.accepted₂

theorem seq_lt : m.seq + 1 < 2 ^ 64 := by
  have := h.seq_le
  rw [U64_MAX] at this
  omega

theorem othersKept (h₁ : Wrote sh layout m e₁ { d with fates := f₁ } d₁ t₁ k₁)
    (h₂ : Wrote sh layout m e₂ { d₁ with fates := f₂ } d₂ t₂ k₂) : OthersKept sh layout m d.blocks d₂.blocks := by
  intro k hk hne i hi
  have hc := layout.two_le_copies
  have hdis : ∀ n ≤ maxBlocks sh, ∀ j < n, layout.copyStart k (maxBlocks sh) + i ≠ nextStart sh layout m + j :=
    fun n hn j hj => h.disjoint k hk _ (Nat.mod_lt _ (by omega)) hne i hi j (by omega)
  rw [h₂.rest _ fun j _ hj => hdis _ h.body₂.blocksFor_le j hj]
  exact h₁.rest _ fun j _ hj => hdis _ h.body₁.blocksFor_le j hj

/-- Before the two commits the copy held older blocks only. -/
private theorem older {i : Nat} (hi : i < maxBlocks sh) {x : BlockHead × Bytes}
    (hx : content (d.blocks (nextStart sh layout m + i)) = some x) : x.1.seq < m.seq := by
  have hc := layout.two_le_copies
  exact h.stands.older _ (Nat.mod_lt _ (by omega)) (fun _ => Ne.symm (succ_mod_ne hc)) i hi _ (content_eq_some hx).1

/-- A block of the copy with the new `seq` is one of the second commit up to where it stopped, or one of the first commit
from there on; any other is older. -/
private theorem new_content (h₁ : Wrote sh layout m e₁ { d with fates := f₁ } d₁ t₁ k₁)
    (h₂ : Wrote sh layout m e₂ { d₁ with fates := f₂ } d₂ t₂ k₂) (hforge : NoForgedBlock d.blocks d₂) {i : Nat}
    (hi : i < maxBlocks sh) {x : BlockHead × Bytes} (hx : content (d₂.blocks (nextStart sh layout m + i)) = some x) :
    x.1.seq < m.seq ∨
      (i ≤ t₂ ∧ i < blocksFor sh (writeBody sh m e₂).length ∧ content (copyBlock sh (writeBody sh m e₂) (m.seq + 1) i) = some x) ∨
      (t₂ ≤ i ∧ i < blocksFor sh (writeBody sh m e₁).length ∧
        content (copyBlock sh (writeBody sh m e₁) (m.seq + 1) i) = some x) := by
  rcases hforge _ _ hx with hold | ⟨w, hw, hblock, hdata⟩
  · exact Or.inl (h.older hi hold)
  · rcases h₂.writes w hw with hw | ⟨j, hj, hjt, hb, hd⟩
    · rcases h₁.writes w hw with hw | ⟨j, hj, -, hb, hd⟩
      · rw [h.writes] at hw
        simp at hw
      · obtain rfl : j = i := by omega
        rw [hd] at hdata
        rcases Nat.lt_or_ge j t₂ with hlt | hge
        · rw [h₂.whole j hlt] at hx
          exact Or.inr (Or.inl ⟨by omega, by have := h₂.le; omega, hx⟩)
        · exact Or.inr (Or.inr ⟨hge, hj, hdata⟩)
    · obtain rfl : j = i := by omega
      rw [hd] at hdata
      exact Or.inr (Or.inl ⟨hjt, hj, hdata⟩)

/-- An accepted copy with the new `seq` is a head of the second commit's and a tail of the first's. -/
private theorem chunks_split (h₁ : Wrote sh layout m e₁ { d with fates := f₁ } d₁ t₁ k₁)
    (h₂ : Wrote sh layout m e₂ { d₁ with fates := f₂ } d₂ t₂ k₂) (hforge : NoForgedBlock d.blocks d₂) {cs : List Bytes}
    (hcs : CopyIs sh d₂.blocks (nextStart sh layout m) (m.seq + 1) cs) (hle : cs.length ≤ maxBlocks sh) :
    ∃ s ≤ cs.length, (0 < s → blocksFor sh (writeBody sh m e₂).length = cs.length) ∧
      (s < cs.length → blocksFor sh (writeBody sh m e₁).length = cs.length) ∧
      ∀ i c, cs[i]? = some c → c = if i < s then chunkAt sh (writeBody sh m e₂) i else chunkAt sh (writeBody sh m e₁) i := by
  have hblock : ∀ i c, cs[i]? = some c →
      (i ≤ t₂ ∧ blocksFor sh (writeBody sh m e₂).length = cs.length ∧ c = chunkAt sh (writeBody sh m e₂) i) ∨
      (t₂ ≤ i ∧ blocksFor sh (writeBody sh m e₁).length = cs.length ∧ c = chunkAt sh (writeBody sh m e₁) i) := by
    intro i c hc
    have hi := (List.getElem?_eq_some_iff.mp hc).1
    rcases h.new_content h₁ h₂ hforge (by omega) (hcs.block i c hc) with hlt | ⟨ht, hn, hx⟩ | ⟨ht, hn, hx⟩
    · simp at hlt
    · rw [h.body₂.content_copyBlock h.seq_lt hn] at hx
      obtain ⟨h1, h2⟩ := Prod.mk.inj (Option.some.inj hx)
      exact Or.inl ⟨ht, (BlockHead.mk.inj h1).2.2.1, h2.symm⟩
    · rw [h.body₁.content_copyBlock h.seq_lt hn] at hx
      obtain ⟨h1, h2⟩ := Prod.mk.inj (Option.some.inj hx)
      exact Or.inr ⟨ht, (BlockHead.mk.inj h1).2.2.1, h2.symm⟩
  have hget : ∀ i < cs.length, ∃ c, cs[i]? = some c := fun i hi => ⟨cs[i], List.getElem?_eq_getElem hi⟩
  -- The block where the second commit stopped belongs to either one.
  by_cases hlast : t₂ < cs.length ∧ cs[t₂]? = some (chunkAt sh (writeBody sh m e₂) t₂) ∧
      blocksFor sh (writeBody sh m e₂).length = cs.length
  · obtain ⟨hlt, hc₂, hn₂⟩ := hlast
    refine ⟨t₂ + 1, hlt, fun _ => hn₂, ?_, ?_⟩
    · intro hs
      obtain ⟨c, hc⟩ := hget _ hs
      rcases hblock _ c hc with ⟨ht, -⟩ | ⟨-, hn, -⟩
      · omega
      · exact hn
    · intro i c hc
      by_cases hi : i = t₂
      · subst hi
        rw [if_pos (by omega)]
        exact Option.some.inj (hc.symm.trans hc₂)
      · rcases hblock i c hc with ⟨ht, -, hc⟩ | ⟨ht, -, hc⟩
        · rw [if_pos (by omega)]; exact hc
        · rw [if_neg (by omega)]; exact hc
  · refine ⟨min t₂ cs.length, by omega, ?_, ?_, ?_⟩
    · intro hs
      obtain ⟨c, hc⟩ := hget 0 (by omega)
      rcases hblock 0 c hc with ⟨-, hn, -⟩ | ⟨ht, -⟩
      · exact hn
      · omega
    · intro hs
      obtain ⟨c, hc⟩ := hget t₂ (by omega)
      rcases hblock t₂ c hc with ⟨-, hn, rfl⟩ | ⟨-, hn, -⟩
      · exact absurd ⟨by omega, hc, hn⟩ hlast
      · exact hn
    · intro i c hc
      have hi := (List.getElem?_eq_some_iff.mp hc).1
      rcases hblock i c hc with ⟨ht, hn, rfl⟩ | ⟨ht, -, hc⟩
      · rcases Nat.lt_or_ge i t₂ with hlt | hge
        · rw [if_pos (by omega)]
        · obtain rfl : i = t₂ := by omega
          exact absurd ⟨hi, hc, hn⟩ hlast
      · rw [if_neg (by omega)]; exact hc

/-- Under the condition an accepted copy with the new `seq` is whole. -/
private theorem chunks_whole (hsafe : SafeRetry sh m e₁ e₂) (h₁ : Wrote sh layout m e₁ { d with fates := f₁ } d₁ t₁ k₁)
    (h₂ : Wrote sh layout m e₂ { d₁ with fates := f₂ } d₂ t₂ k₂) (hforge : NoForgedBlock d.blocks d₂) {cs : List Bytes}
    (hcs : CopyIs sh d₂.blocks (nextStart sh layout m) (m.seq + 1) cs) (hle : cs.length ≤ maxBlocks sh) :
    cs = chunksOf sh (writeBody sh m e₁) ∨ cs = chunksOf sh (writeBody sh m e₂) := by
  obtain ⟨s, hs, hn₂, hn₁, hc⟩ := h.chunks_split h₁ h₂ hforge hcs hle
  have hpos := List.length_pos_of_ne_nil hcs.ne_nil
  have hext : ∀ body : Bytes, blocksFor sh body.length = cs.length → (∀ i c, cs[i]? = some c → c = chunkAt sh body i) →
      cs = chunksOf sh body := by
    intro body hn hall
    refine List.ext_getElem? fun i => ?_
    rcases Nat.lt_or_ge i cs.length with hi | hi
    · have hci : cs[i]? = some cs[i] := List.getElem?_eq_getElem hi
      rw [hci, eq_comm, getElem?_chunksOf]
      exact ⟨by omega, hall i _ hci⟩
    · rw [List.getElem?_eq_none hi, List.getElem?_eq_none (by rw [length_chunksOf]; omega)]
  rcases Nat.eq_zero_or_pos s with rfl | hs0
  · exact Or.inl (hext _ (hn₁ hpos) fun i c hi => by rw [hc i c hi, if_neg (by omega)])
  rcases Nat.eq_or_lt_of_le hs with rfl | hlt
  · refine Or.inr (hext _ (hn₂ hs0) fun i c hi => ?_)
    rw [hc i c hi, if_pos (List.getElem?_eq_some_iff.mp hi).1]
  rcases hsafe with hne | hone
  · exact absurd ((hn₁ hlt).trans (hn₂ hs0).symm) hne
  by_cases hhead : ∀ i < s, chunkAt sh (writeBody sh m e₁) i = chunkAt sh (writeBody sh m e₂) i
  · refine Or.inl (hext _ (hn₁ hlt) fun i c hi => ?_)
    rw [hc i c hi]
    split
    · rename_i his
      exact (hhead i his).symm
    · rfl
  · -- The head differs somewhere, so the tails agree.
    simp only [not_forall] at hhead
    obtain ⟨p, hp, hdiff⟩ := hhead
    refine Or.inr (hext _ (hn₂ hs0) fun i c hi => ?_)
    have hilt := (List.getElem?_eq_some_iff.mp hi).1
    rw [hc i c hi]
    split
    · rfl
    · rename_i his
      exact (hone p i (by omega) (by rw [hn₁ hlt]; exact hilt)).resolve_left hdiff

/-- Recovery from the whole copy of an edit returns the edited manifest. -/
private theorem recover_chunksOf {e : ManifestEdit} (he : e.WF sh) (hc : m.checkEdit sh e = .ok ()) {blocks : Nat → Bytes}
    (ho : OthersKept sh layout m d.blocks blocks)
    (hcs : CopyIs sh blocks (nextStart sh layout m) (m.seq + 1) (chunksOf sh (writeBody sh m e))) :
    (recoverFrom sh layout).eval blocks = .ok (m.view sh e, false) := by
  have hbody := isBody_writeBody h.wf he hc
  have hwf := view_wf h.wf he hc
  rw [h.stands.recover_new h.wf (by have := h.seq_lt; omega) ho hcs (by rw [length_chunksOf]; exact hbody.blocksFor_le),
    hbody.flatten_chunksOf, writeBody_eq, decodeBody_encodeBody hwf]
  · rfl
  · intro c hcm
    obtain ⟨i, hi, rfl⟩ := List.mem_map.mp hcm
    exact hbody.chunkAt_ne_nil (List.mem_range.mp hi)

/-- Both commits ended early: what they left. -/
private theorem wrote_of_failed {o₁ : Outcome Error Unit} {m₁ : Manifest}
    (hrun : commitEdit sh layout e₁ m { d with fates := f₁ } = (o₁, m₁, d₁)) (hfail : CommitFailed o₁) :
    m₁ = m ∧ ∃ t k, Wrote sh layout m e₁ { d with fates := f₁ } d₁ t k := by
  have hp := commitEdit_spec layout h.body₁ h.accepted₁ h.seq_le { d with fates := f₁ }
  replace hp : CommitPost sh layout { d with fates := f₁ } m e₁ o₁ m₁ d₁ := by rw [Prog.wp, hrun] at hp; exact hp
  cases o₁ with
  | ok x => exact hfail.elim
  | cut => exact hfail.elim
  | err e =>
    obtain ⟨rfl, -, t, k, hl, -⟩ := hp
    exact ⟨rfl, t, k, hl⟩
  | dropped =>
    obtain ⟨rfl, t, k, hl, -⟩ := hp
    exact ⟨rfl, t, k, hl⟩

theorem safe (hsafe : SafeRetry sh m e₁ e₂) : RetrySafe sh layout d m e₁ e₂ := by
  intro f₁ f₂ o₁ m₁ d₁ m₂ d₂ hrun₁ hfail hrun₂ hforge
  obtain ⟨rfl, t₁, k₁, h₁⟩ := h.wrote_of_failed hrun₁ hfail
  have hp := commitEdit_spec layout h.body₂ h.accepted₂ h.seq_le { d₁ with fates := f₂ }
  replace hp : CommitPost sh layout { d₁ with fates := f₂ } m₁ e₂ .cut m₂ d₂ := by rw [Prog.wp, hrun₂] at hp; exact hp
  obtain ⟨rfl, t₂, k₂, h₂, -⟩ := hp
  have ho := h.othersKept h₁ h₂
  by_cases hnew : ∃ cs, CopyIs sh d₂.blocks (nextStart sh layout m₂) (m₂.seq + 1) cs ∧ cs.length ≤ maxBlocks sh
  · obtain ⟨cs, hcs, hle⟩ := hnew
    rcases h.chunks_whole hsafe h₁ h₂ hforge hcs hle with rfl | rfl
    · exact ⟨_, h.recover_chunksOf h.wf₁ h.accepted₁ ho hcs, Or.inr (Or.inl rfl)⟩
    · exact ⟨_, h.recover_chunksOf h.wf₂ h.accepted₂ ho hcs, Or.inr (Or.inr rfl)⟩
  · refine ⟨_, h.stands.recover_old h.wf (by have := h.seq_lt; omega) ho ?_, Or.inl rfl⟩
    intro s c hp
    have heval := @eval_probeOf sh d₂.blocks layout ((m₂.seq + 1) % layout.copies)
    rw [hp] at heval
    obtain ⟨cs, hcs, hlen, hle⟩ := copyIs_of_intact heval
    have hpos := List.length_pos_of_ne_nil hcs.ne_nil
    have hb := hcs.block 0 cs[0] (List.getElem?_eq_getElem hpos)
    rcases h.new_content h₁ h₂ hforge (maxBlocks_pos sh) hb with hlt | ⟨-, hn, hx⟩ | ⟨-, hn, hx⟩
    · exact hlt
    · rw [h.body₂.content_copyBlock h.seq_lt hn] at hx
      obtain rfl := (BlockHead.mk.inj (Prod.mk.inj (Option.some.inj hx)).1).1
      exact absurd ⟨cs, hcs, by omega⟩ hnew
    · rw [h.body₁.content_copyBlock h.seq_lt hn] at hx
      obtain rfl := (BlockHead.mk.inj (Prod.mk.inj (Option.some.inj hx)).1).1
      exact absurd ⟨cs, hcs, by omega⟩ hnew

/-! ### Mixing two commits -/

omit h in
private theorem getD_replicate_append (n i : Nat) (f : Fate) :
    (List.replicate n Fate.ok ++ [f]).getD i .ok = if i = n then f else .ok := by
  rw [List.getD_eq_getElem?_getD, List.getElem?_append, List.length_replicate]
  rcases Nat.lt_trichotomy i n with hi | rfl | hi
  · rw [if_pos hi, if_neg (by omega)]; simp [hi]
  · simp
  · rw [if_neg (by omega), if_neg (by omega), List.getElem?_eq_none (by simp; omega)]
    rfl

/-- All blocks of the first commit land and its flush fails. -/
private theorem run_landed : ∃ d₁, commitEdit sh layout e₁ m
      { d with fates := List.replicate (blocksFor sh (writeBody sh m e₁).length) .ok ++ [.fail 0] } = (.err .device, m, d₁) ∧
    ∃ f k, Wrote sh layout m e₁ { d with fates := f } d₁ (blocksFor sh (writeBody sh m e₁).length) k := by
  have hp := commitEdit_spec layout h.body₁ h.accepted₁ h.seq_le
    { d with fates := List.replicate (blocksFor sh (writeBody sh m e₁).length) .ok ++ [.fail 0] }
  rcases hrun : commitEdit sh layout e₁ m
    { d with fates := List.replicate (blocksFor sh (writeBody sh m e₁).length) .ok ++ [.fail 0] } with ⟨o, m', d'⟩
  rw [Prog.wp, hrun] at hp
  cases o with
  | ok x =>
    obtain ⟨-, -, hf⟩ := hp
    rw [getD_replicate_append, if_pos rfl] at hf
    simp at hf
  | cut =>
    obtain ⟨-, t, k, -, hf⟩ := hp
    rw [getD_replicate_append] at hf
    split at hf <;> simp at hf
  | dropped =>
    obtain ⟨-, t, k, -, hf⟩ := hp
    rw [getD_replicate_append] at hf
    split at hf <;> simp at hf
  | err e =>
    obtain ⟨hm', rfl, t, k, hl, hf⟩ := hp
    rw [getD_replicate_append] at hf
    split at hf
    · rename_i ht
      subst ht hm'
      exact ⟨d', rfl, _, k, hl⟩
    · simp at hf

/-- Power is cut when the second commit reaches block `q`, which keeps what it had. -/
private theorem run_cut {q : Nat} (hq : q < blocksFor sh (writeBody sh m e₂).length) (d₁ : Device) :
    ∃ d₂, commitEdit sh layout e₂ m { d₁ with fates := List.replicate q .ok ++ [.cut 0] } = (.cut, m, d₂) ∧
      ∃ f, Wrote sh layout m e₂ { d₁ with fates := f } d₂ q 0 := by
  have hp := commitEdit_spec layout h.body₂ h.accepted₂ h.seq_le
    { d₁ with fates := List.replicate q .ok ++ [.cut 0] }
  rcases hrun : commitEdit sh layout e₂ m { d₁ with fates := List.replicate q .ok ++ [.cut 0] } with ⟨o, m', d'⟩
  rw [Prog.wp, hrun] at hp
  cases o with
  | ok x =>
    obtain ⟨-, hl, -⟩ := hp
    have hf := hl.answers q hq
    rw [getD_replicate_append, if_pos rfl] at hf
    simp at hf
  | err e =>
    obtain ⟨-, -, t, k, -, hf⟩ := hp
    rw [getD_replicate_append] at hf
    split at hf <;> simp at hf
  | dropped =>
    obtain ⟨-, t, k, -, hf⟩ := hp
    rw [getD_replicate_append] at hf
    split at hf <;> simp at hf
  | cut =>
    obtain ⟨hm', t, k, hl, hf⟩ := hp
    rw [getD_replicate_append] at hf
    split at hf
    · rename_i ht
      obtain rfl : 0 = k := by simpa using hf
      subst ht hm'
      exact ⟨d', rfl, _, hl⟩
    · simp at hf

/-- Two differing blocks: the head of the second commit with the tail of the first is accepted, and is neither. -/
theorem mixes {p q : Nat} (hn : blocksFor sh (writeBody sh m e₁).length = blocksFor sh (writeBody sh m e₂).length)
    (hpq : p < q) (hq : q < blocksFor sh (writeBody sh m e₁).length)
    (hdp : chunkAt sh (writeBody sh m e₁) p ≠ chunkAt sh (writeBody sh m e₂) p)
    (hdq : chunkAt sh (writeBody sh m e₁) q ≠ chunkAt sh (writeBody sh m e₂) q) : ¬ RetrySafe sh layout d m e₁ e₂ := by
  intro hsafe
  obtain ⟨d₁, hrun₁, f₁, k₁, h₁⟩ := h.run_landed
  obtain ⟨d₂, hrun₂, f₂, h₂⟩ := h.run_cut (hn ▸ hq) d₁
  have htail : ∀ i, q ≤ i → i < blocksFor sh (writeBody sh m e₁).length →
      d₂.blocks (nextStart sh layout m + i) = copyBlock sh (writeBody sh m e₁) (m.seq + 1) i := by
    intro i hqi hi
    rw [← h₁.whole i hi]
    rcases Nat.eq_or_lt_of_le hqi with rfl | hlt
    · rw [h₂.torn (hn ▸ hq), Bytes.tear_zero]
    · exact h₂.rest _ fun j hj _ => by omega
  have hforge : NoForgedBlock d.blocks d₂ := by
    intro j x hx
    by_cases hj : ∃ i < blocksFor sh (writeBody sh m e₁).length, j = nextStart sh layout m + i
    · obtain ⟨i, hi, rfl⟩ := hj
      right
      rcases Nat.lt_or_ge i q with hlt | hge
      · obtain ⟨w, hw, hb, hd⟩ := h₂.logged i hlt
        rw [h₂.whole i hlt, ← hd] at hx
        exact ⟨w, hw, hb, hx⟩
      · obtain ⟨w, hw, hb, hd⟩ := h₁.logged i hi
        rw [htail i hge hi, ← hd] at hx
        exact ⟨w, h₂.kept w hw, hb, hx⟩
    · left
      have hout : ∀ i < blocksFor sh (writeBody sh m e₁).length, j ≠ nextStart sh layout m + i :=
        fun i hi heq => hj ⟨i, hi, heq⟩
      rw [h₂.rest j fun i _ hi => hout i (hn ▸ hi)] at hx
      change content (d₁.blocks j) = some x at hx
      rw [h₁.rest j fun i _ hi => hout i hi] at hx
      exact hx
  let pick : Nat → Bytes := fun i => if i < q then chunkAt sh (writeBody sh m e₂) i else chunkAt sh (writeBody sh m e₁) i
  have hget : ∀ i c, ((List.range (blocksFor sh (writeBody sh m e₁).length)).map pick)[i]? = some c ↔
      i < blocksFor sh (writeBody sh m e₁).length ∧ c = pick i := by
    intro i c
    rw [List.getElem?_map]
    constructor
    · intro hc
      obtain ⟨j, hj, rfl⟩ := Option.map_eq_some_iff.mp hc
      obtain ⟨hi, rfl⟩ := List.getElem?_eq_some_iff.mp hj
      simp only [List.length_range] at hi
      simp [hi]
    · rintro ⟨hi, rfl⟩
      rw [List.getElem?_range hi, Option.map_some]
  have hlen : ((List.range (blocksFor sh (writeBody sh m e₁).length)).map pick).length =
      blocksFor sh (writeBody sh m e₁).length := by simp
  have hcs : CopyIs sh d₂.blocks (nextStart sh layout m) (m.seq + 1)
      ((List.range (blocksFor sh (writeBody sh m e₁).length)).map pick) := by
    refine ⟨List.ne_nil_of_length_pos (by omega), ?_, ?_⟩
    · intro i c hc
      obtain ⟨hi, rfl⟩ := (hget i c).mp hc
      rw [hlen]
      dsimp only [pick]
      split
      · rename_i hiq
        rw [h₂.whole i hiq, h.body₂.content_copyBlock h.seq_lt (hn ▸ hi), hn]
      · rename_i hiq
        rw [htail i (by omega) hi, h.body₁.content_copyBlock h.seq_lt hi]
    · intro i c hc hlt
      obtain ⟨hi, rfl⟩ := (hget i c).mp hc
      rw [hlen] at hlt
      dsimp only [pick]
      split
      · exact h.body₂.length_chunkAt_full (hn ▸ hlt)
      · exact h.body₁.length_chunkAt_full hlt
  have hle : ∀ c ∈ (List.range (blocksFor sh (writeBody sh m e₁).length)).map pick, c.length ≤ chunk sh ∧ c ≠ [] := by
    intro c hc
    obtain ⟨i, hi, rfl⟩ := List.mem_map.mp hc
    have hi := List.mem_range.mp hi
    dsimp only [pick]
    split
    · exact ⟨by rw [length_chunkAt]; omega, h.body₂.chunkAt_ne_nil (hn ▸ hi)⟩
    · exact ⟨by rw [length_chunkAt]; omega, h.body₁.chunkAt_ne_nil hi⟩
  have hchunk : ∀ i < blocksFor sh (writeBody sh m e₁).length,
      chunkAt sh ((List.range (blocksFor sh (writeBody sh m e₁).length)).map pick).flatten i = pick i :=
    fun i hi => chunkAt_flatten hcs.full (fun c hc => (hle c hc).1) ((hget i _).mpr ⟨hi, rfl⟩)
  obtain ⟨r, hr, hor⟩ := hsafe _ _ _ _ _ _ _ hrun₁ rfl hrun₂ hforge
  rw [h.stands.recover_new h.wf (by have := h.seq_lt; omega) (h.othersKept h₁ h₂) hcs
    (by rw [hlen]; exact h.body₁.blocksFor_le) fun c hc => (hle c hc).2] at hr
  split at hr
  · rename_i m' hdec
    obtain rfl := Except.ok.inj hr
    obtain ⟨hflat, -⟩ := inverts_decodeBody.exact _ _ _ hdec
    rw [List.append_nil] at hflat
    -- Decoding is exact: the recovered manifest would be the encoding of the mixture.
    have hbody : ∀ e : ManifestEdit, ({ m' with seq := m.seq + 1 }, false) = (m.view sh e, false) →
        ((List.range (blocksFor sh (writeBody sh m e₁).length)).map pick).flatten = writeBody sh m e := by
      intro e heq
      rw [hflat, writeBody_eq, ← (Prod.mk.inj heq).1]
      rfl
    rcases hor with heq | heq | heq
    · rw [recovered] at heq
      split at heq
      · simp at heq
      · have := congrArg (fun x => x.1.seq) heq
        simp at this
    · have hp' := hchunk p (by omega)
      rw [hbody e₁ heq] at hp'
      exact hdp (hp'.trans (if_pos hpq))
    · have hq' := hchunk q hq
      rw [hbody e₂ heq] at hq'
      exact hdq (hq'.trans (if_neg (lt_irrefl q))).symm
  · simp at hr

end RetrySetup

end Retry

/-- Recovery never mixes a failed commit with the next one exactly when their copies differ in the number of blocks or in at
most one block. -/
theorem retry_never_mixes_iff {sh : Shape} {layout : ManifestLayout} {d : Device} {m : Manifest} {e₁ e₂ : ManifestEdit}
    (h : RetrySetup sh layout d m e₁ e₂) : RetrySafe sh layout d m e₁ e₂ ↔ SafeRetry sh m e₁ e₂ := by
  refine ⟨?_, h.safe⟩
  intro hsafe
  by_contra hnot
  rw [SafeRetry, not_or, not_not] at hnot
  obtain ⟨hn, hall⟩ := hnot
  simp only [not_forall, not_or] at hall
  obtain ⟨p, q, hpq, hq, hdp, hdq⟩ := hall
  exact h.mixes hn hpq hq hdp hdq hsafe

/-! ### Two flushes of a fresh database -/

/-- The edit of a first flush: `seq` versions of one key, each from its own log block, in a table of four blocks. -/
def firstFlush (seq : Nat) (key : Bytes) : ManifestEdit :=
  { ManifestEdit.EMPTY with
    walHead := some (10 + seq)
    flushed := seq
    nextTableId := 1
    added := some (0, ⟨0, 20, 4, key, key, seq, 1, seq, 0, 0, 0⟩) }

private theorem retrySetup_firstFlush {sh : Shape} {layout : ManifestLayout} (hd : layout.Disjoint (maxBlocks sh))
    {key : Bytes} (hk : key.length ≤ sh.KEY_MAX)
    {a b : Nat} (ha : a < 2 ^ 32) (hb : b < 2 ^ 32)
    (hca : { new sh with walHead := 10 }.checkEdit sh (firstFlush a key) = .ok ())
    (hcb : { new sh with walHead := 10 }.checkEdit sh (firstFlush b key) = .ok ()) :
    RetrySetup sh layout ⟨fun _ => Bytes.zeros sh.BLOCK, [], []⟩ { new sh with walHead := 10 } (firstFlush a key)
      (firstFlush b key) := by
  have hblank : isBlank (Bytes.zeros sh.BLOCK) = true := by simp [isBlank, Bytes.zeros]
  have hwf : ∀ n < 2 ^ 32, (firstFlush n key).WF sh := by
    intro n hn
    refine ⟨?_, by simp [firstFlush]; omega, by simp [firstFlush, ManifestEdit.EMPTY], by simp [firstFlush],
      by simp [firstFlush, ManifestEdit.EMPTY], by simp [firstFlush, ManifestEdit.EMPTY], ?_,
      by simp [firstFlush, ManifestEdit.EMPTY]⟩
    · simp only [firstFlush, Option.mem_some_iff, forall_eq']
      omega
    · simp only [firstFlush, Option.mem_some_iff, forall_eq']
      exact ⟨by simp, by simp, by simp, hk, hk, by simp; omega, by simp, by simpa using hn, by simp, by simp, by simp⟩
  refine ⟨hd, ⟨by simp, by simp [new], by simp [new], by simp [new], by simp [new], ?_⟩, by simp [U64_MAX, new],
    ⟨fun _ => hblank, fun h => absurd rfl h, ?_⟩, rfl, hwf a ha, hwf b hb, hca, hcb⟩
  · refine (levelsOk_iff (Nat.zero_le _)).mpr ⟨fun _ => ?_, by simp [new], by simp [new]⟩
    rcases h : sh.LEVELS with _ | n <;> simp [new, h, List.replicate_succ]
  · intro k _ _ i _ h hcheck
    rw [checkBlock_of_isBlank hblank] at hcheck
    simp at hcheck

/-- A first flush fails after its blocks landed; the next one, with one more version of the same long key, is cut between
its two blocks. -/
theorem retry_mixes_two_blocks :
    RetrySetup .wide (.pair 0 5) ⟨fun _ => Bytes.zeros 512, [], []⟩ { new .wide with walHead := 10 }
        (firstFlush 1 (List.replicate 240 7)) (firstFlush 2 (List.replicate 240 7)) ∧
      ¬ RetrySafe .wide (.pair 0 5) ⟨fun _ => Bytes.zeros 512, [], []⟩ { new .wide with walHead := 10 }
        (firstFlush 1 (List.replicate 240 7)) (firstFlush 2 (List.replicate 240 7)) := by
  have hsetup : RetrySetup .wide (.pair 0 5) ⟨fun _ => Bytes.zeros 512, [], []⟩ { new .wide with walHead := 10 }
      (firstFlush 1 (List.replicate 240 7)) (firstFlush 2 (List.replicate 240 7)) :=
    retrySetup_firstFlush (by unfold ManifestLayout.Disjoint; decide +kernel) (by decide +kernel) (by decide) (by decide)
      (by decide +kernel) (by decide +kernel)
  refine ⟨hsetup, hsetup.mixes (p := 0) (q := 1) ?_ (by decide) ?_ ?_ ?_⟩
  · decide +kernel
  · decide +kernel
  · decide +kernel
  · decide +kernel

/-- With short keys the copies take one block, and a retry is safe. -/
theorem retry_never_mixes_iff_one_block :
    RetrySetup .small (.pair 0 1) ⟨fun _ => Bytes.zeros 512, [], []⟩ { new .small with walHead := 10 }
        (firstFlush 1 [7]) (firstFlush 2 [7]) ∧
      RetrySafe .small (.pair 0 1) ⟨fun _ => Bytes.zeros 512, [], []⟩ { new .small with walHead := 10 }
        (firstFlush 1 [7]) (firstFlush 2 [7]) := by
  have hsetup : RetrySetup .small (.pair 0 1) ⟨fun _ => Bytes.zeros 512, [], []⟩ { new .small with walHead := 10 }
      (firstFlush 1 [7]) (firstFlush 2 [7]) :=
    retrySetup_firstFlush (by unfold ManifestLayout.Disjoint; decide +kernel) (by decide +kernel) (by decide) (by decide)
      (by decide +kernel) (by decide +kernel)
  exact ⟨hsetup, (retry_never_mixes_iff hsetup).mpr (by decide +kernel)⟩

end Manifest

end Horton
