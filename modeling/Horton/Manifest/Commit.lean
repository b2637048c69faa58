import Horton.Manifest.Recover

/-!
# Committing a manifest

`commitEdit` writes the copy of the manifest as the edit would leave it, block by block, flushes, and only then applies the
edit in memory.  `Landed` describes the device when it ends: the first `t` blocks of the copy are there, the next one may be
torn, nothing else changed.
-/

namespace Horton

open BlockDev

namespace Manifest

/-- Writes the blocks of a copy from `i` on, `n` of them. -/
def writeCopy (sh : Shape) (m : Manifest) (e : ManifestEdit) (seq start : Nat) : Nat → Nat → Prog Manifest Error Unit
  | _, 0 => pure ()
  | i, n + 1 => do
    let out ← Prog.ofExcept (encodeViewBlock sh m e seq i)
    Prog.writeBlock .device (start + i) out
    writeCopy sh m e seq start (i + 1) n

/-- Commits the manifest as `e` would leave it, then applies `e` in memory. -/
def commitEdit (sh : Shape) (layout : ManifestLayout) (e : ManifestEdit) : Prog Manifest Error Unit := do
  let m ← Prog.get
  Prog.ofExcept (m.checkEdit sh e)
  if m.seq + 1 > U64_MAX then Prog.throw .counterExhausted
  else
    let seq := m.seq + 1
    let start := layout.copyStart (seq % layout.copies) (maxBlocks sh)
    writeCopy sh m e seq start 0 (blocksFor sh (m.viewBodyLen sh e))
    Prog.flush .device
    Prog.set { m.applyChecked e with seq := seq }

/-! ### The blocks of a body -/

/-- Block `i` of the copy of a body. -/
def copyBlock (sh : Shape) (body : Bytes) (seq i : Nat) : Bytes :=
  sealBlock sh.BLOCK seq i (blocksFor sh body.length) (chunkAt sh body i)

/-- The chunks of a body. -/
def chunksOf (sh : Shape) (body : Bytes) : List Bytes := (List.range (blocksFor sh body.length)).map (chunkAt sh body)

variable {sh : Shape}

theorem chunk_pos (sh : Shape) : 0 < chunk sh := by
  have := sh.assertMin
  unfold chunk; omega

theorem lt_divCeil {i a b : Nat} (hb : 0 < b) : i < divCeil a b ↔ i * b < a := by
  rw [divCeil, Nat.lt_iff_add_one_le, Nat.le_div_iff_mul_le hb, Nat.succ_mul]
  omega

theorem divCeil_mono {a a' b : Nat} (h : a ≤ a') : divCeil a b ≤ divCeil a' b := Nat.div_le_div_right (by omega)

private theorem length_levels_le {ls : List (List TableRef)} (hwf : ∀ l ∈ ls, ∀ t ∈ l, t.WF sh) :
    (ls.flatMap encodeLevel).length ≤ 4 * ls.length + (ls.map List.length).sum * (56 + 2 * sh.KEY_MAX) := by
  have hrefs : ∀ l : List TableRef, (∀ t ∈ l, t.WF sh) →
      (l.flatMap encodeRef).length ≤ l.length * (56 + 2 * sh.KEY_MAX) := by
    intro l
    induction l with
    | nil => simp
    | cons t l ih =>
      intro hl
      have h1 := (hl t (by simp)).firstKey_le
      have h2 := (hl t (by simp)).lastKey_le
      have h3 := ih fun u hu => hl u (by simp [hu])
      rw [List.flatMap_cons, List.length_append, length_encodeRef, List.length_cons, Nat.succ_mul]
      omega
  induction ls with
  | nil => simp
  | cons l ls ih =>
    have h1 := hrefs l (hwf l (by simp))
    have h2 := ih fun l' hl' => hwf l' (by simp [hl'])
    rw [List.flatMap_cons, List.length_append, encodeLevel, List.length_append, Bytes.length_leBytes, List.length_cons,
      List.map_cons, List.sum_cons, Nat.add_mul]
    omega

theorem length_encodeBody_le {m : Manifest} (hm : m.WF sh) : (encodeBody m).length ≤ MAX_BODY sh := by
  obtain ⟨-, hsum, hwf⟩ := (levelsOk_iff (Nat.zero_le _)).mp hm.levels_ok
  have h1 := length_levels_le hwf
  have h2 := Nat.mul_le_mul_right (56 + 2 * sh.KEY_MAX) (show (m.levels.map List.length).sum ≤ CAPACITY sh by omega)
  have h3 := hm.length_levels
  simp only [encodeBody, List.length_append, Bytes.length_leBytes, MAX_BODY]
  omega

theorem length_encodeBody_pos (m : Manifest) : 0 < (encodeBody m).length := by
  simp only [encodeBody, List.length_append, Bytes.length_leBytes]
  omega

/-- A body of a manifest of this shape. -/
structure IsBody (sh : Shape) (body : Bytes) : Prop where
  pos : 0 < body.length
  le : body.length ≤ MAX_BODY sh

variable {body : Bytes}

theorem isBody_encodeBody {m : Manifest} (hm : m.WF sh) : IsBody sh (encodeBody m) :=
  ⟨length_encodeBody_pos m, length_encodeBody_le hm⟩

theorem IsBody.blocksFor_eq (h : IsBody sh body) : blocksFor sh body.length = divCeil body.length (chunk sh) := by
  have hpos : 0 < divCeil body.length (chunk sh) := (lt_divCeil (chunk_pos sh)).mpr (by have := h.pos; omega)
  rw [blocksFor, if_neg (by omega)]

theorem IsBody.lt_blocksFor (h : IsBody sh body) {i : Nat} : i < blocksFor sh body.length ↔ i * chunk sh < body.length := by
  rw [h.blocksFor_eq, lt_divCeil (chunk_pos sh)]

theorem IsBody.blocksFor_le (h : IsBody sh body) : blocksFor sh body.length ≤ maxBlocks sh := by
  rw [h.blocksFor_eq]
  exact divCeil_mono h.le

theorem maxBlocks_le (sh : Shape) : maxBlocks sh ≤ U16_MAX := by
  have h := sh.assertManifest
  rw [maxBlocks, divCeil, MAX_BODY, CAPACITY, chunk, U16_MAX]
  rw [show sh.BLOCK - 24 - 4 = sh.BLOCK - 28 by omega, show 8 + 4 + 8 + 8 + 4 + 4 * sh.LEVELS = 32 + 4 * sh.LEVELS by omega]
  exact h

theorem max_body_lt (sh : Shape) : MAX_BODY sh < 2 ^ 32 := by
  have h1 := sh.assertKey.2
  have h2 := levels_le sh
  have h3 : CAPACITY sh * (56 + 2 * sh.KEY_MAX) ≤ 64 * (56 + 2 * 0xFFFF) :=
    Nat.mul_le_mul (capacity_le sh) (by omega)
  unfold MAX_BODY
  omega

theorem length_chunkAt (body : Bytes) (i : Nat) : (chunkAt sh body i).length = min (chunk sh) (body.length - i * chunk sh) := by
  simp [chunkAt]

theorem IsBody.chunkAt_fits (h : IsBody sh body) (i : Nat) :
    28 + (chunkAt sh body i).length ≤ sh.BLOCK ∧ (chunkAt sh body i).length < 2 ^ 32 := by
  have h1 := max_body_lt sh
  have h2 := h.le
  have h3 := sh.assertMin
  rw [length_chunkAt, chunk]
  omega

theorem IsBody.content_copyBlock (h : IsBody sh body) {seq i : Nat} (hs : seq < 2 ^ 64)
    (hi : i < blocksFor sh body.length) : content (copyBlock sh body seq i) =
      some (⟨seq, i, blocksFor sh body.length, (chunkAt sh body i).length⟩, chunkAt sh body i) := by
  have h1 := h.blocksFor_le
  have h2 := maxBlocks_le sh
  rw [U16_MAX] at h2
  obtain ⟨h3, h4⟩ := h.chunkAt_fits i
  exact content_sealBlock hs (by omega) (by omega) h4 h3

theorem length_chunksOf (body : Bytes) : (chunksOf sh body).length = blocksFor sh body.length := by simp [chunksOf]

theorem getElem?_chunksOf {i : Nat} {c : Bytes} : (chunksOf sh body)[i]? = some c ↔
    i < blocksFor sh body.length ∧ c = chunkAt sh body i := by
  rw [chunksOf, List.getElem?_map]
  constructor
  · intro h
    obtain ⟨j, hj, rfl⟩ := Option.map_eq_some_iff.mp h
    obtain ⟨hi, rfl⟩ := List.getElem?_eq_some_iff.mp hj
    simp only [List.length_range] at hi
    simp [hi]
  · rintro ⟨hi, rfl⟩
    rw [List.getElem?_range hi, Option.map_some]

theorem IsBody.length_chunkAt_full (h : IsBody sh body) {i : Nat} (hi : i + 1 < blocksFor sh body.length) :
    (chunkAt sh body i).length = chunk sh := by
  have := h.lt_blocksFor.mp hi
  rw [Nat.succ_mul] at this
  rw [length_chunkAt]
  omega

theorem IsBody.chunkAt_ne_nil (h : IsBody sh body) {i : Nat} (hi : i < blocksFor sh body.length) :
    chunkAt sh body i ≠ [] := by
  have h1 := h.lt_blocksFor.mp hi
  have h2 := chunk_pos sh
  apply List.ne_nil_of_length_pos
  rw [length_chunkAt]
  omega

/-- The chunks of a body make up the body. -/
theorem IsBody.flatten_chunksOf (h : IsBody sh body) : (chunksOf sh body).flatten = body := by
  have htake : ∀ n, ((List.range n).map (chunkAt sh body)).flatten = body.take (n * chunk sh) := by
    intro n
    induction n with
    | zero => simp
    | succ n ih =>
      rw [List.range_succ, List.map_append, List.flatten_append, ih, Nat.succ_mul, List.take_add]
      simp [chunkAt]
  rw [chunksOf, htake, List.take_of_length_le]
  have := (h.lt_blocksFor (i := blocksFor sh body.length)).not.mp (lt_irrefl _)
  omega

/-- Chunks that are full up to the last one are the chunks of what they make up. -/
theorem chunkAt_flatten {cs : List Bytes} (hfull : ∀ i c, cs[i]? = some c → i + 1 < cs.length → c.length = chunk sh)
    (hle : ∀ c ∈ cs, c.length ≤ chunk sh) {i : Nat} {c : Bytes} (hc : cs[i]? = some c) : chunkAt sh cs.flatten i = c := by
  induction cs generalizing i with
  | nil => simp at hc
  | cons a cs ih =>
    have hrest := fun {j : Nat} => @ih (fun i c hc hlt => hfull (i + 1) c (by simpa using hc) (by simpa using hlt))
      (fun c hc => hle c (by simp [hc])) j
    rw [List.flatten_cons, chunkAt]
    cases i with
    | zero =>
      obtain rfl : a = c := by simpa using hc
      rw [Nat.zero_mul, List.drop_zero]
      rcases cs with _ | ⟨b, cs⟩
      · rw [List.flatten_nil, List.append_nil, List.take_of_length_le (hle a (by simp))]
      · rw [List.take_append_of_le_length (by rw [hfull 0 a rfl (by simp)]), List.take_of_length_le (hle a (by simp))]
    | succ i =>
      have hi := (List.getElem?_eq_some_iff.mp hc).1
      have ha : a.length = chunk sh := hfull 0 a rfl (by omega)
      rw [show (i + 1) * chunk sh = a.length + i * chunk sh by rw [ha, Nat.succ_mul]; omega, ← List.drop_drop,
        List.drop_left]
      exact hrest (by simpa using hc)

/-- Blocks with the contents of the copy of a body are a copy. -/
theorem IsBody.copyIs (h : IsBody sh body) {blocks : Nat → Bytes} {start seq : Nat} (hs : seq < 2 ^ 64)
    (hb : ∀ i < blocksFor sh body.length, content (blocks (start + i)) = content (copyBlock sh body seq i)) :
    CopyIs sh blocks start seq (chunksOf sh body) where
  ne_nil := by
    have h0 := h.lt_blocksFor (i := 0)
    have := h.pos
    apply List.ne_nil_of_length_pos
    rw [length_chunksOf]
    omega
  block i c hc := by
    obtain ⟨hi, rfl⟩ := getElem?_chunksOf.mp hc
    rw [hb i hi, h.content_copyBlock hs hi, length_chunksOf]
  full i c hc hlt := by
    obtain ⟨hi, rfl⟩ := getElem?_chunksOf.mp hc
    rw [length_chunksOf] at hlt
    exact h.length_chunkAt_full hlt

theorem encodeViewBlock_ok {m : Manifest} {e : ManifestEdit} (h : IsBody sh (writeBody sh m e)) (seq : Nat) {i : Nat}
    (hi : i < blocksFor sh (writeBody sh m e).length) :
    encodeViewBlock sh m e seq i = .ok (copyBlock sh (writeBody sh m e) seq i) := by
  have h1 := h.blocksFor_le
  have h2 := maxBlocks_le sh
  have h3 := max_body_lt sh
  have h4 := h.le
  have hlen := length_writeBody sh m e
  rw [encodeViewBlock, ← hlen, if_neg (by omega), if_neg]
  · congr 1
    rw [copyBlock, chunkAt, ← List.take_take, List.take_of_length_le]
    simp
  · rw [U32_MAX]
    omega

/-! ### What a commit leaves on the device -/

/-- Of `n` blocks written from `start` on, the first `t` landed whole and of the next one the first `k` bytes. -/
structure Landed (d d' : Device) (start n : Nat) (blk : Nat → Bytes) (t k : Nat) : Prop where
  le : t ≤ n
  whole : ∀ i < t, d'.blocks (start + i) = blk i
  torn : t < n → d'.blocks (start + t) = Bytes.tear k (blk t) (d.blocks (start + t))
  rest : ∀ j, (∀ i ≤ t, i < n → j ≠ start + i) → d'.blocks j = d.blocks j
  writes : ∀ w ∈ d'.writes, w ∈ d.writes ∨ ∃ i < n, i ≤ t ∧ w.block = start + i ∧ w.data = blk i
  after : ∀ w ∈ d'.writes, w ∈ d.writes ∨ ∃ i < n, w.block = start + i ∧ w.data = blk i ∧ w.after = d'.blocks (start + i)
  logged : ∀ i < t, ∃ w ∈ d'.writes, w.block = start + i ∧ w.data = blk i
  kept : ∀ w ∈ d.writes, w ∈ d'.writes
  answers : ∀ q < t, d.fates.getD q .ok = .ok

variable {d d' : Device} {start n t k : Nat} {blk : Nat → Bytes}

theorem landed_none (d : Device) (start n : Nat) (blk : Nat → Bytes) : Landed d d start n blk 0 0 where
  le := Nat.zero_le _
  whole := by simp
  torn _ := (Bytes.tear_zero _ _).symm
  rest _ _ := rfl
  writes _ h := Or.inl h
  after _ h := Or.inl h
  logged := by simp
  kept _ h := h
  answers := by simp

/-- So far only blocks before block `t` of the copy were written. -/
private def WroteBefore (d d' : Device) (start t : Nat) : Prop :=
  ∀ w ∈ d'.writes, w ∈ d.writes ∨ ∃ i < t, w.block = start + i

/-- A write of block `t` changes the outcome of no earlier one. -/
private theorem Landed.after_put (h : Landed d d' start n blk t 0) (hb : WroteBefore d d' start t) (ht : t < n)
    (content : Bytes) : ∀ w ∈ (d'.put (start + t) (blk t) content).advance.writes, w ∈ d.writes ∨
      ∃ i < n, w.block = start + i ∧ w.data = blk i ∧
        w.after = (d'.put (start + t) (blk t) content).advance.blocks (start + i) := by
  intro w hw
  rw [Device.advance_writes, Device.put_writes] at hw
  rcases List.mem_append.mp hw with hw | hw
  · rcases hb w hw with hold | ⟨i, hi, hblock⟩
    · exact Or.inl hold
    · refine (h.after w hw).imp id ?_
      rintro ⟨j, hj, h1, h2, h3⟩
      refine ⟨j, hj, h1, h2, ?_⟩
      rw [Device.advance_blocks, Device.put_blocks_ne _ _ _ (by omega)]
      exact h3
  · obtain rfl := List.mem_singleton.mp hw
    exact Or.inr ⟨t, ht, rfl, rfl, by rw [Device.advance_blocks, Device.put_blocks_same]⟩

private theorem WroteBefore.put (hb : WroteBefore d d' start t) (content : Bytes) :
    WroteBefore d (d'.put (start + t) (blk t) content).advance start (t + 1) := by
  intro w hw
  rw [Device.advance_writes, Device.put_writes] at hw
  rcases List.mem_append.mp hw with hw | hw
  · exact (hb w hw).imp id fun ⟨i, hi, h⟩ => ⟨i, by omega, h⟩
  · obtain rfl := List.mem_singleton.mp hw
    exact Or.inr ⟨t, by omega, rfl⟩

/-- One more write, of which `k` bytes land. -/
private theorem Landed.put (h : Landed d d' start n blk t 0) (hb : WroteBefore d d' start t) (ht : t < n) (k : Nat) :
    Landed d (d'.put (start + t) (blk t) (Bytes.tear k (blk t) (d'.blocks (start + t)))).advance start n blk t k where
  le := h.le
  whole i hi := by
    rw [Device.advance_blocks, Device.put_blocks_ne _ _ _ (by omega)]
    exact h.whole i hi
  torn _ := by
    rw [Device.advance_blocks, Device.put_blocks_same, h.torn ht, Bytes.tear_zero]
  rest j hj := by
    rw [Device.advance_blocks, Device.put_blocks_ne _ _ _ (hj t le_rfl ht)]
    exact h.rest j hj
  writes w hw := by
    rw [Device.advance_writes, Device.put_writes] at hw
    rcases List.mem_append.mp hw with hw | hw
    · exact h.writes w hw
    · obtain rfl := List.mem_singleton.mp hw
      exact Or.inr ⟨t, ht, le_rfl, rfl, rfl⟩
  after := h.after_put hb ht _
  logged i hi := by
    obtain ⟨w, hw, h1, h2⟩ := h.logged i hi
    exact ⟨w, List.mem_append_left _ hw, h1, h2⟩
  kept w hw := List.mem_append_left _ (h.kept w hw)
  answers := h.answers

/-- One more whole write. -/
private theorem Landed.put_whole (h : Landed d d' start n blk t 0) (hb : WroteBefore d d' start t) (ht : t < n) (hf : d.fates.getD t .ok = .ok) :
    Landed d (d'.put (start + t) (blk t) (blk t)).advance start n blk (t + 1) 0 where
  le := ht
  whole i hi := by
    rw [Device.advance_blocks]
    rcases Nat.lt_succ_iff_lt_or_eq.mp hi with hi | rfl
    · rw [Device.put_blocks_ne _ _ _ (by omega)]
      exact h.whole i hi
    · exact Device.put_blocks_same ..
  torn _ := by
    rw [Device.advance_blocks, Device.put_blocks_ne _ _ _ (by omega), Bytes.tear_zero]
    exact h.rest _ fun i hi _ => by omega
  rest j hj := by
    rw [Device.advance_blocks, Device.put_blocks_ne _ _ _ (hj t (by omega) ht)]
    exact h.rest j fun i hi => hj i (by omega)
  writes w hw := by
    rw [Device.advance_writes, Device.put_writes] at hw
    rcases List.mem_append.mp hw with hw | hw
    · rcases h.writes w hw with hw | ⟨i, hi, hit, hw⟩
      · exact Or.inl hw
      · exact Or.inr ⟨i, hi, by omega, hw⟩
    · obtain rfl := List.mem_singleton.mp hw
      exact Or.inr ⟨t, ht, by omega, rfl, rfl⟩
  after := h.after_put hb ht _
  logged i hi := by
    rcases Nat.lt_succ_iff_lt_or_eq.mp hi with hi | rfl
    · obtain ⟨w, hw, h1, h2⟩ := h.logged i hi
      exact ⟨w, List.mem_append_left _ hw, h1, h2⟩
    · exact ⟨⟨start + i, blk i, blk i⟩, by simp, rfl, rfl⟩
  kept w hw := List.mem_append_left _ (h.kept w hw)
  answers q hq := by
    rcases Nat.lt_succ_iff_lt_or_eq.mp hq with hq | rfl
    · exact h.answers q hq
    · exact hf

private theorem fate_of_drop {d₀ d : Device} {i : Nat} (h : d.fates = d₀.fates.drop i) : d.fate = d₀.fates.getD i .ok := by
  rw [Device.fate, h, List.headD_eq_head?_getD, List.head?_drop, List.getD_eq_getElem?_getD]

private theorem advance_drop {d₀ d : Device} {i : Nat} (h : d.fates = d₀.fates.drop i) :
    d.advance.fates = d₀.fates.drop (i + 1) := by
  rw [Device.advance, h, List.tail_drop]

variable {m : Manifest} {e : ManifestEdit} {seq : Nat}

/-- How the block writes of a commit end. -/
def CopyPost (d₀ : Device) (m₀ : Manifest) (start n : Nat) (blk : Nat → Bytes) : Outcome Error Unit → Manifest → Device → Prop
  | .ok _, m, d => m = m₀ ∧ Landed d₀ d start n blk n 0 ∧ d.fates = d₀.fates.drop n
  | .err e, m, d => m = m₀ ∧ e = .device ∧ ∃ t k, Landed d₀ d start n blk t k ∧ d₀.fates.getD t .ok = .fail k
  | .cut, m, d => m = m₀ ∧ ∃ t k, Landed d₀ d start n blk t k ∧ d₀.fates.getD t .ok = .cut k
  | .dropped, m, d => m = m₀ ∧ ∃ t k, Landed d₀ d start n blk t k ∧ d₀.fates.getD t .ok = .drop k

private theorem wp_writeCopy (hbody : IsBody sh (writeBody sh m e)) {d₀ d : Device} {m₀ : Manifest} (n i : Nat)
    (hin : i + n = blocksFor sh (writeBody sh m e).length)
    (h : Landed d₀ d start (blocksFor sh (writeBody sh m e).length) (copyBlock sh (writeBody sh m e) seq) i 0)
    (hb : WroteBefore d₀ d start i) (hf : d.fates = d₀.fates.drop i) :
    (writeCopy sh m e seq start i n).wp (CopyPost d₀ m₀ start (blocksFor sh (writeBody sh m e).length)
      (copyBlock sh (writeBody sh m e) seq)) m₀ d := by
  induction n generalizing i d with
  | zero =>
    obtain rfl : i = blocksFor sh (writeBody sh m e).length := by omega
    exact ⟨rfl, h, hf⟩
  | succ n ih =>
    have hi : i < blocksFor sh (writeBody sh m e).length := by omega
    have hfate := fate_of_drop hf
    rw [writeCopy, encodeViewBlock_ok hbody seq hi, Prog.wp_bind, Prog.wp_ofExcept_ok, Prog.andThen_ok, Prog.wp_bind,
      Prog.wp_writeBlock]
    cases hd : d.fate with
    | ok =>
      refine ih (i + 1) (by omega) (h.put_whole hb hi (hfate.symm.trans hd)) (hb.put _) ?_
      exact advance_drop (show (d.put _ _ _).fates = _ from hf)
    | fail k => exact ⟨rfl, rfl, i, k, h.put hb hi k, hfate.symm.trans hd⟩
    | cut k => exact ⟨rfl, i, k, h.put hb hi k, hfate.symm.trans hd⟩
    | drop k => exact ⟨rfl, i, k, h.put hb hi k, hfate.symm.trans hd⟩

/-- The first block of the copy that the next commit writes. -/
def nextStart (sh : Shape) (layout : ManifestLayout) (m : Manifest) : Nat :=
  layout.copyStart ((m.seq + 1) % layout.copies) (maxBlocks sh)

/-- How a commit of an accepted edit ends. -/
def CommitPost (sh : Shape) (layout : ManifestLayout) (d₀ : Device) (m₀ : Manifest) (e : ManifestEdit) :
    Outcome Error Unit → Manifest → Device → Prop := fun o m d =>
  let n := blocksFor sh (writeBody sh m₀ e).length
  let blk := copyBlock sh (writeBody sh m₀ e) (m₀.seq + 1)
  let start := nextStart sh layout m₀
  match o with
  | .ok _ => m = { m₀.applyChecked e with seq := m₀.seq + 1 } ∧ Landed d₀ d start n blk n 0 ∧ d₀.fates.getD n .ok = .ok
  | .err e => m = m₀ ∧ e = .device ∧ ∃ t k, Landed d₀ d start n blk t k ∧ d₀.fates.getD t .ok = .fail k
  | .cut => m = m₀ ∧ ∃ t k, Landed d₀ d start n blk t k ∧ d₀.fates.getD t .ok = .cut k
  | .dropped => m = m₀ ∧ ∃ t k, Landed d₀ d start n blk t k ∧ d₀.fates.getD t .ok = .drop k

theorem Landed.advance {d d' : Device} (h : Landed d d' start n blk t k) : Landed d d'.advance start n blk t k :=
  ⟨h.le, h.whole, h.torn, h.rest, h.writes, h.after, h.logged, h.kept, h.answers⟩

/-- The flush after all blocks moves no data. -/
private theorem Landed.flushed {d d' : Device} (h : Landed d d' start n blk n 0) (k : Nat) :
    Landed d d'.advance start n blk n k :=
  ⟨h.le, h.whole, by simp, h.rest, h.writes, h.after, h.logged, h.kept, h.answers⟩

theorem commitEdit_spec (layout : ManifestLayout) (hbody : IsBody sh (writeBody sh m e)) (hc : m.checkEdit sh e = .ok ())
    (hseq : m.seq + 1 ≤ U64_MAX) (d : Device) :
    (commitEdit sh layout e).wp (CommitPost sh layout d m e) m d := by
  have hlen := length_writeBody sh m e
  rw [commitEdit, Prog.wp_bind, Prog.wp_get, Prog.andThen_ok, hc, Prog.wp_bind, Prog.wp_ofExcept_ok, Prog.andThen_ok,
    if_neg (by omega), ← hlen, Prog.wp_bind]
  refine Prog.wp_mono (wp_writeCopy hbody _ 0 (by omega) (landed_none ..) (fun _ => Or.inl) rfl) ?_
  intro o m' d' hp
  cases o with
  | err e' => exact hp
  | cut => exact hp
  | dropped => exact hp
  | ok x =>
    obtain ⟨rfl, hl, hf⟩ := hp
    have hfate := fate_of_drop hf
    rw [Prog.andThen_ok, Prog.wp_bind, Prog.wp_flush]
    cases hd : d'.fate with
    | ok => exact ⟨rfl, hl.advance, hfate.symm.trans hd⟩
    | fail k => exact ⟨rfl, rfl, _, k, hl.flushed k, hfate.symm.trans hd⟩
    | cut k => exact ⟨rfl, _, k, hl.flushed k, hfate.symm.trans hd⟩
    | drop k => exact ⟨rfl, _, k, hl.flushed k, hfate.symm.trans hd⟩

end Manifest

end Horton
