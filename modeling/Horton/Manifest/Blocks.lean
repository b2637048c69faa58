import Horton.Manifest.Codec

/-!
# Manifest blocks and copies

A copy is a run of blocks, each with a header (`magic | seq | index | count | len`), a chunk of the body and a checksum over
both.  `probeCopy` accepts a copy when its blocks agree; `recoverFrom` reads every copy and decodes the newest accepted one.

`content` is all that recovery looks at in a block, and `CopyIs` says that the blocks from `start` on hold the chunks `cs` of
one commit.
-/

namespace Horton

open BlockDev

namespace Manifest

/-- ASCII "hrtman06". -/
def MANIFEST_MAGIC : Nat := Bytes.leNat [0x68, 0x72, 0x74, 0x6d, 0x61, 0x6e, 0x30, 0x36]

structure BlockHead where
  seq : Nat
  index : Nat
  count : Nat
  len : Nat
  deriving DecidableEq, Repr

/-- Validates one block (magic, chunk length, checksum) and returns its header. -/
def checkBlock (buf : Bytes) : Option BlockHead := do
  let magic ← Bytes.slice buf 0 8
  guard (Bytes.leNat magic = MANIFEST_MAGIC)
  let seq ← Bytes.slice buf 8 8
  let index ← Bytes.slice buf 16 2
  let count ← Bytes.slice buf 18 2
  let len ← Bytes.slice buf 20 4
  let crcEnd := 24 + Bytes.leNat len
  guard (crcEnd + 4 ≤ buf.length)
  let stored ← Bytes.slice buf crcEnd 4
  let covered ← Bytes.slice buf 0 crcEnd
  guard (crc32 covered = Bytes.leNat stored)
  return ⟨Bytes.leNat seq, Bytes.leNat index, Bytes.leNat count, Bytes.leNat len⟩

/-- Header and chunk: what the checksum covers. -/
def framed (seq index count : Nat) (c : Bytes) : Bytes :=
  [Bytes.leBytes 8 MANIFEST_MAGIC, Bytes.leBytes 8 seq, Bytes.leBytes 2 index, Bytes.leBytes 2 count,
    Bytes.leBytes 4 c.length, c].flatten

/-- A whole block: header, chunk, checksum, zero padding. -/
def sealBlock (size seq index count : Nat) (c : Bytes) : Bytes :=
  let f := framed seq index count c
  f ++ Bytes.leBytes 4 (crc32 f) ++ Bytes.zeros (size - f.length - 4)

/-- The `i`-th chunk of a body. -/
def chunkAt (sh : Shape) (body : Bytes) (i : Nat) : Bytes := (body.drop (i * chunk sh)).take (chunk sh)

/-- Encodes block `index` of the copy of the manifest as the edit would leave it. -/
def encodeViewBlock (sh : Shape) (m : Manifest) (e : ManifestEdit) (seq index : Nat) : Except Error Bytes :=
  let body := m.viewBodyLen sh e
  let count := blocksFor sh body
  if index ≥ count then .error .manifestFull
  else
    let len := min (body - index * chunk sh) (chunk sh)
    if index > U16_MAX ∨ count > U16_MAX ∨ len > U32_MAX then .error .manifestFull
    else .ok (sealBlock sh.BLOCK seq index count (((writeBody sh m e).drop (index * chunk sh)).take len))

inductive Probe
  | intact (seq count : Nat)
  | blank
  | corrupt
  deriving DecidableEq, Repr

/-- All zeros on a zeroed device, all `0xFF` on erased flash. -/
def isBlank (buf : Bytes) : Bool := buf.all (· == 0) || buf.all (· == 0xFF)

/-- The blocks of a copy after its first, from `i` on, `n` of them. -/
def probeLoop (sh : Shape) (start : Nat) (head : BlockHead) : Nat → Nat → Reads Error Probe
  | _, 0 => pure (.intact head.seq head.count)
  | i, n + 1 => do
    let buf ← Reads.block (start + i)
    match checkBlock buf with
    | none => pure .corrupt
    | some h =>
      if h.seq ≠ head.seq ∨ h.index ≠ i ∨ h.count ≠ head.count ∨ (i + 1 ≠ head.count ∧ h.len ≠ chunk sh) then pure .corrupt
      else probeLoop sh start head (i + 1) n

/-- Checks one copy. -/
def probeCopy (sh : Shape) (start stride : Nat) : Reads Error Probe := do
  let buf ← Reads.block start
  if isBlank buf then pure .blank
  else match checkBlock buf with
    | none => pure .corrupt
    | some head =>
      if head.index ≠ 0 ∨ head.count = 0 ∨ head.count > stride then pure .corrupt
      else if head.count > 1 ∧ head.len ≠ chunk sh then pure .corrupt
      else probeLoop sh start head 1 (head.count - 1)

/-- The best copy so far, as its `seq`, first block and block count, and whether a copy was blank. -/
structure Found where
  best : Option (Nat × Nat × Nat)
  blank : Bool

def Found.note (f : Found) (start : Nat) : Probe → Found
  | .intact seq count => { f with best := if f.best.all (seq > ·.1) then some (seq, start, count) else f.best }
  | .blank => { f with blank := true }
  | .corrupt => f

/-- A body streamed from the blocks of a copy: the next block to load, and the loaded block with how much of its chunk is
used. -/
structure BlockSource where
  next : Nat
  off : Nat
  len : Nat
  scratch : Bytes

/-- Fills `need` bytes.  The fuel covers one pass of the loop for every byte and every block. -/
def takeLoop (start count : Nat) : Nat → Nat → BlockSource → Reads Error (Bytes × BlockSource)
  | 0, _, _ => .fail .corruptManifest
  | fuel + 1, need, src =>
    if need = 0 then pure ([], src)
    else if src.off = src.len then
      if src.next = count then .fail .corruptManifest
      else do
        let buf ← Reads.block (start + src.next)
        match checkBlock buf with
        | none => .fail .corruptManifest
        | some head =>
          if head.index ≠ src.next then .fail .corruptManifest
          else takeLoop start count fuel need ⟨src.next + 1, 0, head.len, buf⟩
    else do
      let n := min (src.len - src.off) need
      let (rest, src') ← takeLoop start count fuel (need - n) { src with off := src.off + n }
      return ((src.scratch.drop (24 + src.off)).take n ++ rest, src')

def takeBytes (start count n : Nat) (src : BlockSource) : Reads Error (Bytes × BlockSource) :=
  takeLoop start count (n + (count - src.next) + 1) n src

/-- Decodes the accepted copy. -/
def decodeCopy (sh : Shape) (seq start count : Nat) : Reads Error Manifest := do
  let (out, src) ← (decodeBody sh).stream (takeBytes start count) .corruptManifest ⟨0, 0, 0, []⟩
  if src.next ≠ count ∨ src.off ≠ src.len then .fail .corruptManifest
  else return { out with seq := seq }

/-- Reads every copy and returns the newest intact one, or a fresh manifest when a copy was never written. -/
def recoverFrom (sh : Shape) (layout : ManifestLayout) : Reads Error (Manifest × Bool) := do
  let stride := maxBlocks sh
  let found ← (List.range layout.copies).foldlM (fun (f : Found) k => do
    let start := layout.copyStart k stride
    let p ← probeCopy sh start stride
    return f.note start p) ⟨none, false⟩
  match found.best with
  | none => if found.blank then return (new sh, true) else .fail .corruptManifest
  | some (seq, start, count) =>
    let m ← decodeCopy sh seq start count
    return (m, false)

/-! ### One block -/

/-- Header and chunk of a block that passes its check. -/
def content (buf : Bytes) : Option (BlockHead × Bytes) := (checkBlock buf).map fun h => (h, (buf.drop 24).take h.len)

theorem length_framed (seq index count : Nat) (c : Bytes) : (framed seq index count c).length = 24 + c.length := by
  simp [framed]; omega

theorem length_sealBlock {size seq index count : Nat} {c : Bytes} (h : 28 + c.length ≤ size) :
    (sealBlock size seq index count c).length = size := by
  simp only [sealBlock, List.length_append, length_framed, Bytes.length_leBytes, Bytes.length_zeros]
  omega

theorem content_sealBlock {size seq index count : Nat} {c : Bytes} (hs : seq < 2 ^ 64) (hi : index < 2 ^ 16)
    (hn : count < 2 ^ 16) (hc : c.length < 2 ^ 32) (hsize : 28 + c.length ≤ size) :
    content (sealBlock size seq index count c) = some (⟨seq, index, count, c.length⟩, c) := by
  have hlen := @length_sealBlock size seq index count c hsize
  have hfr := length_framed seq index count c
  have hfields : sealBlock size seq index count c =
      [Bytes.leBytes 8 MANIFEST_MAGIC, Bytes.leBytes 8 seq, Bytes.leBytes 2 index, Bytes.leBytes 2 count,
        Bytes.leBytes 4 c.length, c, Bytes.leBytes 4 (crc32 (framed seq index count c))].flatten ++
      Bytes.zeros (size - (framed seq index count c).length - 4) := by
    simp [sealBlock, framed]
  have hpair : sealBlock size seq index count c =
      [framed seq index count c, Bytes.leBytes 4 (crc32 (framed seq index count c))].flatten ++
      Bytes.zeros (size - (framed seq index count c).length - 4) := by
    simp [sealBlock]
  have s0 : Bytes.slice (sealBlock size seq index count c) 0 8 = some (Bytes.leBytes 8 MANIFEST_MAGIC) := by
    rw [hfields]; exact Bytes.slice_field _ 0 rfl rfl (by simp)
  have s8 : Bytes.slice (sealBlock size seq index count c) 8 8 = some (Bytes.leBytes 8 seq) := by
    rw [hfields]; exact Bytes.slice_field _ 1 rfl (by simp) (by simp)
  have s16 : Bytes.slice (sealBlock size seq index count c) 16 2 = some (Bytes.leBytes 2 index) := by
    rw [hfields]; exact Bytes.slice_field _ 2 rfl (by simp) (by simp)
  have s18 : Bytes.slice (sealBlock size seq index count c) 18 2 = some (Bytes.leBytes 2 count) := by
    rw [hfields]; exact Bytes.slice_field _ 3 rfl (by simp) (by simp)
  have s20 : Bytes.slice (sealBlock size seq index count c) 20 4 = some (Bytes.leBytes 4 c.length) := by
    rw [hfields]; exact Bytes.slice_field _ 4 rfl (by simp) (by simp)
  have sc : Bytes.slice (sealBlock size seq index count c) (24 + c.length) 4 =
      some (Bytes.leBytes 4 (crc32 (framed seq index count c))) := by
    rw [hpair]; exact Bytes.slice_field _ 1 rfl (by simp [hfr]) (by simp)
  have sf : Bytes.slice (sealBlock size seq index count c) 0 (24 + c.length) = some (framed seq index count c) := by
    rw [hpair]; exact Bytes.slice_field _ 0 rfl rfl hfr.symm
  have n0 : Bytes.leNat (Bytes.leBytes 8 MANIFEST_MAGIC) = MANIFEST_MAGIC := by decide
  have n8 : Bytes.leNat (Bytes.leBytes 8 seq) = seq := Bytes.leNat_leBytes_of_lt hs
  have n16 : Bytes.leNat (Bytes.leBytes 2 index) = index := Bytes.leNat_leBytes_of_lt hi
  have n18 : Bytes.leNat (Bytes.leBytes 2 count) = count := Bytes.leNat_leBytes_of_lt hn
  have n20 : Bytes.leNat (Bytes.leBytes 4 c.length) = c.length := Bytes.leNat_leBytes_of_lt hc
  have nc : Bytes.leNat (Bytes.leBytes 4 (crc32 (framed seq index count c))) = crc32 (framed seq index count c) :=
    Bytes.leNat_leBytes_of_lt (crc32_lt _)
  have hcheck : checkBlock (sealBlock size seq index count c) = some ⟨seq, index, count, c.length⟩ := by
    have hle : 24 + c.length + 4 ≤ size := by omega
    simp only [checkBlock, s0, Option.bind_eq_bind, Option.bind_some, n0, s8, s16, s18, s20, n20, hlen, sc, sf, nc, n8, n16,
      n18, guard, if_true, hle]
    rfl
  have hchunk : ((sealBlock size seq index count c).drop 24).take c.length = c := by
    have hs : Bytes.slice (sealBlock size seq index count c) 24 c.length = some c := by
      rw [hfields]; exact Bytes.slice_field _ 5 rfl (by simp) rfl
    exact (Bytes.slice_eq_some hs).2.symm
  rw [content, hcheck, Option.map_some, hchunk]

theorem content_eq_some {buf : Bytes} {h : BlockHead} {c : Bytes} (hc : content buf = some (h, c)) :
    checkBlock buf = some h ∧ (buf.drop 24).take h.len = c := by
  obtain ⟨h', hh, heq⟩ := Option.map_eq_some_iff.mp hc
  obtain ⟨rfl, rfl⟩ := Prod.mk.inj heq
  exact ⟨hh, rfl⟩

theorem content_of_checkBlock {buf : Bytes} {h : BlockHead} (hc : checkBlock buf = some h) :
    content buf = some (h, (buf.drop 24).take h.len) := by rw [content, hc]; rfl

private theorem guard_bind_some {p : Prop} [Decidable p] {α : Type} {f : Unit → Option α} {a : α}
    (h : (guard p >>= f) = some a) : p ∧ f () = some a := by
  by_cases hp : p
  · exact ⟨hp, by simpa [guard, hp] using h⟩
  · simp [guard, hp] at h

private theorem checkBlock_inv {buf : Bytes} {h : BlockHead} (hc : checkBlock buf = some h) :
    (∃ magic, Bytes.slice buf 0 8 = some magic ∧ Bytes.leNat magic = MANIFEST_MAGIC) ∧ 24 + h.len + 4 ≤ buf.length ∧
      h.seq < 2 ^ 64 := by
  obtain ⟨magic, hm, hc⟩ := Option.bind_eq_some_iff.mp hc
  obtain ⟨hmagic, hc⟩ := guard_bind_some hc
  obtain ⟨seq, hseq, hc⟩ := Option.bind_eq_some_iff.mp hc
  obtain ⟨index, -, hc⟩ := Option.bind_eq_some_iff.mp hc
  obtain ⟨count, -, hc⟩ := Option.bind_eq_some_iff.mp hc
  obtain ⟨len, -, hc⟩ := Option.bind_eq_some_iff.mp hc
  obtain ⟨hle, hc⟩ := guard_bind_some hc
  obtain ⟨stored, -, hc⟩ := Option.bind_eq_some_iff.mp hc
  obtain ⟨covered, -, hc⟩ := Option.bind_eq_some_iff.mp hc
  obtain ⟨-, hc⟩ := guard_bind_some hc
  obtain rfl := Option.some.inj hc
  refine ⟨⟨magic, hm, hmagic⟩, hle, ?_⟩
  have hlt := Bytes.leNat_lt seq
  rw [Bytes.length_slice hseq] at hlt
  exact hlt

/-- A block that passes its check begins with its header, its chunk and the checksum of both. -/
theorem take_of_checkBlock {buf : Bytes} {h : BlockHead} (hc : checkBlock buf = some h) :
    buf.take (28 + h.len) = framed h.seq h.index h.count ((buf.drop 24).take h.len) ++
      Bytes.leBytes 4 (crc32 (framed h.seq h.index h.count ((buf.drop 24).take h.len))) := by
  obtain ⟨magic, hm, hc⟩ := Option.bind_eq_some_iff.mp hc
  obtain ⟨hmagic, hc⟩ := guard_bind_some hc
  obtain ⟨seq, hseq, hc⟩ := Option.bind_eq_some_iff.mp hc
  obtain ⟨index, hindex, hc⟩ := Option.bind_eq_some_iff.mp hc
  obtain ⟨count, hcount, hc⟩ := Option.bind_eq_some_iff.mp hc
  obtain ⟨len, hlen, hc⟩ := Option.bind_eq_some_iff.mp hc
  obtain ⟨hle, hc⟩ := guard_bind_some hc
  obtain ⟨stored, hstored, hc⟩ := Option.bind_eq_some_iff.mp hc
  obtain ⟨covered, hcovered, hc⟩ := Option.bind_eq_some_iff.mp hc
  obtain ⟨hcrc, hc⟩ := guard_bind_some hc
  obtain rfl := Option.some.inj hc
  have hfield : ∀ {off n : Nat} {x : Bytes}, Bytes.slice buf off n = some x → Bytes.leBytes n (Bytes.leNat x) = x := by
    intro off n x hx
    have := Bytes.leBytes_leNat x
    rwa [Bytes.length_slice hx] at this
  have hchunk : Bytes.slice buf 24 (Bytes.leNat len) = some ((buf.drop 24).take (Bytes.leNat len)) := by
    rw [Bytes.slice, if_pos (by omega)]
  have hchain := Bytes.slice_trans (Bytes.slice_trans (Bytes.slice_trans (Bytes.slice_trans (Bytes.slice_trans hm hseq rfl)
    hindex rfl) hcount rfl) hlen rfl) hchunk rfl
  have hframed : framed (Bytes.leNat seq) (Bytes.leNat index) (Bytes.leNat count) ((buf.drop 24).take (Bytes.leNat len)) =
      covered := by
    have hlc : ((buf.drop 24).take (Bytes.leNat len)).length = Bytes.leNat len := Bytes.length_slice hchunk
    rw [framed, hlc, ← hmagic, hfield hm, hfield hseq, hfield hindex, hfield hcount, hfield hlen]
    have heq : some _ = some covered := hchain.symm.trans hcovered
    simpa using Option.some.inj heq
  have hwhole := Bytes.slice_trans hcovered hstored (by omega)
  have htake : buf.take (28 + Bytes.leNat len) = covered ++ stored := by
    have := (Bytes.slice_eq_some hwhole).2
    rw [List.drop_zero, show 24 + Bytes.leNat len + 4 = 28 + Bytes.leNat len by omega] at this
    exact this.symm
  rw [htake, hframed, hcrc, hfield hstored]

/-- The chunk of a block and its frame fit the block. -/
theorem le_length_of_content {buf : Bytes} {h : BlockHead} {c : Bytes} (hc : content buf = some (h, c)) :
    28 + h.len ≤ buf.length ∧ h.seq < 2 ^ 64 := by
  obtain ⟨-, hle, hseq⟩ := checkBlock_inv (content_eq_some hc).1
  exact ⟨by omega, hseq⟩

theorem length_content {buf : Bytes} {h : BlockHead} {c : Bytes} (hc : content buf = some (h, c)) : c.length = h.len := by
  obtain ⟨hh, rfl⟩ := content_eq_some hc
  have := (checkBlock_inv hh).2.1
  simp; omega

/-- A blank block does not pass the check. -/
theorem checkBlock_of_isBlank {buf : Bytes} (hb : isBlank buf = true) : checkBlock buf = none := by
  by_contra hne
  obtain ⟨h, hh⟩ := Option.ne_none_iff_exists'.mp hne
  obtain ⟨⟨magic, hm, hmagic⟩, -⟩ := checkBlock_inv hh
  have hlen := Bytes.length_slice hm
  obtain ⟨-, hm⟩ := Bytes.slice_eq_some hm
  have hall : (∀ b ∈ magic, b = 0) ∨ ∀ b ∈ magic, b = 0xFF := by
    simp only [isBlank, Bool.or_eq_true, List.all_eq_true, beq_iff_eq] at hb
    rw [hm]
    exact hb.imp (fun h b hb => h b (List.mem_of_mem_drop (List.mem_of_mem_take hb)))
      fun h b hb => h b (List.mem_of_mem_drop (List.mem_of_mem_take hb))
  rcases hall with h0 | h0
  · rw [List.eq_replicate_iff.mpr ⟨hlen, h0⟩] at hmagic
    exact absurd hmagic (by decide)
  · rw [List.eq_replicate_iff.mpr ⟨hlen, h0⟩] at hmagic
    exact absurd hmagic (by decide)

/-! ### One copy -/

/-- The blocks from `start` on hold the chunks `cs` of one commit. -/
structure CopyIs (sh : Shape) (blocks : Nat → Bytes) (start seq : Nat) (cs : List Bytes) : Prop where
  ne_nil : cs ≠ []
  block : ∀ i c, cs[i]? = some c → content (blocks (start + i)) = some (⟨seq, i, cs.length, c.length⟩, c)
  full : ∀ i c, cs[i]? = some c → i + 1 < cs.length → c.length = chunk sh

variable {sh : Shape} {blocks : Nat → Bytes} {start stride seq : Nat} {cs : List Bytes}

/-- Block `j` of a copy agrees with its first block. -/
def Agrees (sh : Shape) (blocks : Nat → Bytes) (start : Nat) (head : BlockHead) (j : Nat) : Prop :=
  ∃ h, checkBlock (blocks (start + j)) = some h ∧ h.seq = head.seq ∧ h.index = j ∧ h.count = head.count ∧
    (j + 1 ≠ head.count → h.len = chunk sh)

private theorem eval_probeLoop (head : BlockHead) (i n : Nat) :
    ∃ p, (probeLoop sh start head i n).eval blocks = .ok p ∧ (p = .corrupt ∨ p = .intact head.seq head.count) ∧
      (p = .intact head.seq head.count ↔ ∀ j, i ≤ j → j < i + n → Agrees sh blocks start head j) := by
  induction n generalizing i with
  | zero => exact ⟨_, rfl, Or.inr rfl, by simp; omega⟩
  | succ n ih =>
    obtain ⟨p, hp, hor, hiff⟩ := ih (i + 1)
    rw [probeLoop, Reads.eval_bind, Reads.eval_block, Except.bind]
    rcases hc : checkBlock (blocks (start + i)) with _ | h
    · refine ⟨.corrupt, rfl, Or.inl rfl, by simp, ?_⟩
      intro hall
      obtain ⟨h, hh, -⟩ := hall i le_rfl (by omega)
      simp [hc] at hh
    · dsimp only
      split
      · rename_i hbad
        refine ⟨.corrupt, rfl, Or.inl rfl, by simp, ?_⟩
        intro hall
        obtain ⟨h', hh, h1, h2, h3, h4⟩ := hall i le_rfl (by omega)
        obtain rfl := Option.some.inj (hc.symm.trans hh)
        rcases hbad with hb | hb | hb | ⟨hb, hb'⟩
        · exact absurd h1 hb
        · exact absurd h2 hb
        · exact absurd h3 hb
        · exact absurd (h4 hb) hb'
      · rename_i hgood
        simp only [not_or, not_and, not_not] at hgood
        refine ⟨p, hp, hor, hiff.trans ⟨?_, ?_⟩⟩
        · intro hall j h1 h2
          rcases Nat.eq_or_lt_of_le h1 with rfl | h1
          · exact ⟨h, hc, hgood.1, hgood.2.1, hgood.2.2.1, hgood.2.2.2⟩
          · exact hall j h1 (by omega)
        · exact fun hall j h1 h2 => hall j (by omega) (by omega)

/-- A copy that holds the chunks of one commit is accepted. -/
theorem CopyIs.eval_probeCopy (h : CopyIs sh blocks start seq cs) (hle : cs.length ≤ stride) :
    (probeCopy sh start stride).eval blocks = .ok (.intact seq cs.length) := by
  have hpos := List.length_pos_of_ne_nil h.ne_nil
  obtain ⟨c, hc⟩ : ∃ c, cs[0]? = some c := ⟨cs[0], by simp⟩
  obtain ⟨hcheck, -⟩ := content_eq_some (h.block 0 c hc)
  have hblank : isBlank (blocks start) = false := by
    by_contra hb
    rw [Nat.add_zero, checkBlock_of_isBlank (by simpa using hb)] at hcheck
    simp at hcheck
  obtain ⟨p, hp, -, hiff⟩ := @eval_probeLoop sh blocks start ⟨seq, 0, cs.length, c.length⟩ 1 (cs.length - 1)
  rw [hiff.mpr ?_] at hp
  · rw [probeCopy, Reads.eval_bind, Reads.eval_block, Except.bind]
    rw [Nat.add_zero] at hcheck
    simp only [hblank, Bool.false_eq_true, if_false, hcheck]
    rw [if_neg (show ¬ ((0 : Nat) ≠ 0 ∨ cs.length = 0 ∨ cs.length > stride) by omega), if_neg, hp]
    rintro ⟨h1, h2⟩
    exact h2 (h.full 0 c hc (by simpa using h1))
  · intro j h1 h2
    obtain ⟨c', hc'⟩ : ∃ c, cs[j]? = some c := ⟨cs[j], List.getElem?_eq_getElem (by omega)⟩
    refine ⟨_, (content_eq_some (h.block j c' hc')).1, rfl, rfl, rfl, ?_⟩
    intro hne
    have hne' : j + 1 ≠ cs.length := hne
    exact h.full j c' hc' (by omega)

/-- Blocks that agree with the first one hold the chunks of one commit. -/
private theorem copyIs_of_agrees {head : BlockHead} (hpos : head.count ≠ 0)
    (h : ∀ j < head.count, Agrees sh blocks start head j) :
    ∃ cs, CopyIs sh blocks start head.seq cs ∧ cs.length = head.count := by
  let chunkOf : Nat → Bytes := fun i => ((content (blocks (start + i))).map Prod.snd).getD []
  have hlen : ((List.range head.count).map chunkOf).length = head.count := by simp
  have hget : ∀ i c, ((List.range head.count).map chunkOf)[i]? = some c → i < head.count ∧ c = chunkOf i := by
    intro i c hc
    rw [List.getElem?_map] at hc
    obtain ⟨j, hj, rfl⟩ := Option.map_eq_some_iff.mp hc
    obtain ⟨hi, rfl⟩ := List.getElem?_eq_some_iff.mp hj
    simp only [List.length_range] at hi
    simp [hi]
  have hblock : ∀ i < head.count, ∃ g : BlockHead, content (blocks (start + i)) = some (g, chunkOf i) ∧
      g = ⟨head.seq, i, head.count, (chunkOf i).length⟩ ∧ (i + 1 ≠ head.count → (chunkOf i).length = chunk sh) := by
    intro i hi
    obtain ⟨g, hg, h1, h2, h3, h4⟩ := h i hi
    have hcont := content_of_checkBlock hg
    have hchunk : chunkOf i = ((blocks (start + i)).drop 24).take g.len := by simp [chunkOf, hcont]
    rw [← hchunk] at hcont
    have hl := length_content hcont
    refine ⟨g, hcont, ?_, fun hne => hl.trans (h4 hne)⟩
    rw [hl, ← h1, ← h2, ← h3]
  refine ⟨(List.range head.count).map chunkOf, ⟨by simp [hpos], ?_, ?_⟩, hlen⟩
  · intro i c hc
    obtain ⟨hi, rfl⟩ := hget i c hc
    obtain ⟨g, hg, hgeq, -⟩ := hblock i hi
    rw [hlen, ← hgeq]
    exact hg
  · intro i c hc hlt
    obtain ⟨hi, rfl⟩ := hget i c hc
    obtain ⟨-, -, -, hfull⟩ := hblock i hi
    exact hfull (by omega)

/-- An accepted copy holds the chunks of one commit. -/
theorem copyIs_of_intact {count : Nat} (h : (probeCopy sh start stride).eval blocks = .ok (.intact seq count)) :
    ∃ cs, CopyIs sh blocks start seq cs ∧ cs.length = count ∧ count ≤ stride := by
  rw [probeCopy, Reads.eval_bind, Reads.eval_block, Except.bind] at h
  split at h
  · simp at h
  · rcases hc : checkBlock (blocks start) with _ | head
    · simp [hc] at h
    · rw [hc] at h
      dsimp only at h
      split at h
      · simp at h
      · rename_i h1
        split at h
        · simp at h
        · rename_i h2
          obtain ⟨p, hp, hor, hiff⟩ := @eval_probeLoop sh blocks start head 1 (head.count - 1)
          simp only [not_or, not_not, not_lt, not_and] at h1 h2
          obtain ⟨hi0, hn0, hns⟩ := h1
          obtain rfl := Except.ok.inj (hp.symm.trans h)
          obtain ⟨rfl, rfl⟩ : seq = head.seq ∧ count = head.count := by simpa using hor
          have hagree := hiff.mp rfl
          obtain ⟨cs, hcs, hlen⟩ := copyIs_of_agrees hn0 fun j hj => by
            rcases Nat.eq_zero_or_pos j with rfl | hj0
            · exact ⟨head, hc, rfl, hi0, rfl, fun hne => h2 (by omega)⟩
            · exact hagree j hj0 (by omega)
          exact ⟨cs, hcs, hlen, hns⟩

/-- A probe always gives an answer; it is `blank` exactly for a blank first block. -/
theorem eval_probeCopy_blank : ∃ p, (probeCopy sh start stride).eval blocks = .ok p ∧
    (p = .blank ↔ isBlank (blocks start) = true) := by
  rw [probeCopy, Reads.eval_bind, Reads.eval_block, Except.bind]
  split
  · rename_i hb
    exact ⟨.blank, rfl, by simp [hb]⟩
  · rename_i hb
    split
    · exact ⟨.corrupt, rfl, by simp [hb]⟩
    · split
      · exact ⟨.corrupt, rfl, by simp [hb]⟩
      · split
        · exact ⟨.corrupt, rfl, by simp [hb]⟩
        · rename_i head _ _ _
          obtain ⟨p, hp, hor, -⟩ := @eval_probeLoop sh blocks start head 1 (head.count - 1)
          refine ⟨p, hp, ?_⟩
          rcases hor with rfl | rfl <;> simp [hb]

end Manifest

end Horton
