import Horton.Sstable.Agreement

/-!
# Reading range tombstones

The read side of a table's range-tombstone section: `rdel_block_count` verifies a block, `rdel_parse_at` parses one
tombstone.  `RdelsOn` says that a section lies on the device; what `RdelWriter` wrote is such a section
(`Built.rdelsOn`).
-/

namespace Horton

open BlockDev

namespace Sstable

variable (sh : Shape)

/-- Verifies a block of the section; the number of its tombstones.  Bit 15 is the compression flag of data blocks. -/
def rdelBlockCount (block : Bytes) (id : Nat) : Except Error Nat := do
  checkBlockCrc sh block id
  let raw := Bytes.leNat ((block.drop (bodyEnd sh - 2)).take 2)
  if raw &&& 0x8000 ≠ 0 then .error (.corruptBlock id) else .ok raw

/-- The tombstone at `off` and the offset of the next one; the writer never emits an empty bound. -/
def rdelParseAt (block : Bytes) (off : Nat) : Option (RdelEntry × Nat) := do
  let sl ← Bytes.slice block off 2
  let el ← Bytes.slice block (off + 2) 2
  if Bytes.leNat sl = 0 ∨ Bytes.leNat el = 0 then none
  else
    let seq ← Bytes.slice block (off + 4) 8
    let start ← Bytes.slice block (off + 12) (Bytes.leNat sl)
    let stop ← Bytes.slice block (off + 12 + Bytes.leNat sl) (Bytes.leNat el)
    some (⟨start, stop, Bytes.leNat seq⟩, off + 12 + Bytes.leNat sl + Bytes.leNat el)

variable {sh} {b : List RdelEntry} {r : RdelEntry}

/-- The bounds and the number of a tombstone have a place in its fields, and the bounds one in a table ref. -/
structure RdelWF (sh : Shape) (r : RdelEntry) : Prop where
  start_ne : r.start ≠ []
  stop_ne : r.stop ≠ []
  start_le : r.start.length ≤ sh.KEY_MAX
  stop_le : r.stop.length ≤ sh.KEY_MAX
  seq_le : r.seq ≤ U64_MAX

theorem rdelParseAt_append (h : RdelWF sh r) (pre post : Bytes) :
    rdelParseAt (pre ++ encodeRdel r ++ post) pre.length = some (r, pre.length + (encodeRdel r).length) := by
  have hkey := sh.assertKey.2
  have hu : U16_MAX = 0xFFFF := rfl
  have hstart : r.start.length ≠ 0 := fun hc => h.start_ne (List.length_eq_zero_iff.mp hc)
  have hstop : r.stop.length ≠ 0 := fun hc => h.stop_ne (List.length_eq_zero_iff.mp hc)
  have hsl := leNat_two (show r.start.length ≤ U16_MAX from h.start_le.trans hkey)
  have hel := leNat_two (show r.stop.length ≤ U16_MAX from h.stop_le.trans hkey)
  have hseq := leNat_eight h.seq_le
  have hfields : pre ++ encodeRdel r ++ post = [pre, Bytes.leBytes 2 r.start.length, Bytes.leBytes 2 r.stop.length,
      Bytes.leBytes 8 r.seq, r.start, r.stop].flatten ++ post := by simp [encodeRdel]
  have h1 : Bytes.slice (pre ++ encodeRdel r ++ post) pre.length 2 = some (Bytes.leBytes 2 r.start.length) := by
    rw [hfields]; exact Bytes.slice_field _ 1 rfl (by simp) (by simp)
  have h2 : Bytes.slice (pre ++ encodeRdel r ++ post) (pre.length + 2) 2 = some (Bytes.leBytes 2 r.stop.length) := by
    rw [hfields]; exact Bytes.slice_field _ 2 rfl (by simp) (by simp)
  have h3 : Bytes.slice (pre ++ encodeRdel r ++ post) (pre.length + 4) 8 = some (Bytes.leBytes 8 r.seq) := by
    rw [hfields]; exact Bytes.slice_field _ 3 rfl (by simp) (by simp)
  have h4 : Bytes.slice (pre ++ encodeRdel r ++ post) (pre.length + 12) r.start.length = some r.start := by
    rw [hfields]; exact Bytes.slice_field _ 4 rfl (by simp) rfl
  have h5 : Bytes.slice (pre ++ encodeRdel r ++ post) (pre.length + 12 + r.start.length) r.stop.length = some r.stop := by
    rw [hfields]; exact Bytes.slice_field _ 5 rfl (by simp; omega) rfl
  simp only [rdelParseAt, h1, h2, h3, h4, h5, Option.bind_eq_bind, Option.bind_some, hsl, hel, hseq, hstart, hstop, or_self,
    if_false, RdelWriter.length_encodeRdel, rdelEntryLen]
  congr 2
  omega

/-! ### A block of the section -/

/-- A block that the writer can have filled. -/
structure RdelBlockOk (sh : Shape) (b : List RdelEntry) : Prop where
  ne_nil : b ≠ []
  room : (encodeRdels b).length + RDEL_TRAILER ≤ sh.BLOCK
  count_lt : b.length < 2 ^ 15
  wf : ∀ r ∈ b, RdelWF sh r

/-- The bytes of a block before its checksum. -/
def rdelBody (sh : Shape) (b : List RdelEntry) : Bytes :=
  encodeRdels b ++ Bytes.zeros (bodyEnd sh - 2 - (encodeRdels b).length) ++ Bytes.leBytes 2 b.length

/-- Where tombstone `i` of a block starts. -/
def rdelOffset (b : List RdelEntry) (i : Nat) : Nat := (encodeRdels (b.take i)).length

theorem encodeRdels_append (a b : List RdelEntry) : encodeRdels (a ++ b) = encodeRdels a ++ encodeRdels b := by
  simp [encodeRdels]

namespace RdelBlockOk

theorem sealRdel_eq (hb : RdelBlockOk sh b) : sealRdel sh (encodeRdels b) b.length = .ok (withCrc (rdelBody sh b)) := by
  have hcount := hb.count_lt
  have hu : U16_MAX = 0xFFFF := rfl
  rw [sealRdel, if_neg (by omega)]
  rfl

theorem length_rdelBody (hb : RdelBlockOk sh b) : (rdelBody sh b).length = bodyEnd sh := by
  have hroom := hb.room
  unfold RDEL_TRAILER at hroom
  unfold rdelBody bodyEnd CRC_LEN
  simp
  omega

theorem rdelBlockCount_eq (hb : RdelBlockOk sh b) (id : Nat) : rdelBlockCount sh (withCrc (rdelBody sh b)) id = .ok b.length := by
  have hlen := hb.length_rdelBody
  have hcount := hb.count_lt
  have hu : U16_MAX = 0xFFFF := rfl
  have htrailer : Bytes.leNat (((withCrc (rdelBody sh b)).drop (bodyEnd sh - 2)).take 2) = b.length := by
    rw [rdelBody] at hlen ⊢
    exact trailer_drop hlen (by simp) (leNat_two (by omega))
  unfold rdelBlockCount
  rw [checkBlockCrc_withCrc hlen]
  show (if _ &&& 0x8000 ≠ 0 then _ else _) = _
  rw [htrailer, if_neg (not_not.mpr (count_bits hcount))]

theorem rdelParseAt_eq (hb : RdelBlockOk sh b) {i : Nat} (hi : b[i]? = some r) :
    rdelParseAt (withCrc (rdelBody sh b)) (rdelOffset b i) = some (r, rdelOffset b (i + 1)) := by
  obtain ⟨hlt, rfl⟩ := List.getElem?_eq_some_iff.mp hi
  have hsplit : encodeRdels b = encodeRdels (b.take i) ++ encodeRdel b[i] ++ encodeRdels (b.drop (i + 1)) := by
    conv => lhs; rw [← List.take_append_drop i b, List.drop_eq_getElem_cons hlt]
    rw [encodeRdels_append, List.append_assoc]
    rfl
  have hnext : rdelOffset b (i + 1) = rdelOffset b i + (encodeRdel b[i]).length := by
    rw [rdelOffset, List.take_succ_eq_append_getElem hlt, encodeRdels_concat, List.length_append]
    rfl
  have hbody : withCrc (rdelBody sh b) = encodeRdels (b.take i) ++ encodeRdel b[i] ++ (encodeRdels (b.drop (i + 1)) ++
      Bytes.zeros (bodyEnd sh - 2 - (encodeRdels b).length) ++ Bytes.leBytes 2 b.length ++
      Bytes.leBytes CRC_LEN (crc32 (rdelBody sh b))) := by
    have hstart : rdelBody sh b = encodeRdels (b.take i) ++ encodeRdel b[i] ++ encodeRdels (b.drop (i + 1)) ++
        Bytes.zeros (bodyEnd sh - 2 - (encodeRdels b).length) ++ Bytes.leBytes 2 b.length :=
      congrArg (· ++ Bytes.zeros (bodyEnd sh - 2 - (encodeRdels b).length) ++ Bytes.leBytes 2 b.length) hsplit
    rw [withCrc]
    conv => lhs; arg 1; rw [hstart]
    simp only [List.append_assoc]
  rw [hnext, hbody]
  exact rdelParseAt_append (hb.wf _ (List.getElem_mem hlt)) _ _

/-- A tombstone takes more than a byte. -/
theorem length_le (hb : RdelBlockOk sh b) : b.length ≤ sh.BLOCK := by
  have hroom := hb.room
  have hlen : ∀ l : List RdelEntry, l.length ≤ (encodeRdels l).length := by
    intro l
    induction l with
    | nil => simp
    | cons r l ih =>
      have := encodeRdel_pos r
      simp only [encodeRdels, List.flatMap_cons, List.length_append, List.length_cons] at ih ⊢
      omega
  have := hlen b
  omega

end RdelBlockOk

/-! ### The section -/

/-- A section of the blocks `bins` lies on the device from `base` on. -/
structure RdelsOn (sh : Shape) (blocks : Nat → Bytes) (base : Nat) (bins : List (List RdelEntry)) : Prop where
  block : ∀ b ∈ bins, RdelBlockOk sh b
  ids : base + bins.length ≤ U64_MAX + 1
  sealed : ∀ i b, bins[i]? = some b → sealRdel sh (encodeRdels b) b.length = .ok (blocks (base + i))

theorem RdelsOn.blocks_eq {blocks : Nat → Bytes} {base i : Nat} {bins : List (List RdelEntry)} (h : RdelsOn sh blocks base bins)
    (hi : bins[i]? = some b) : blocks (base + i) = withCrc (rdelBody sh b) := by
  have hs := h.sealed i b hi
  rw [(h.block b (List.mem_of_getElem? hi)).sealRdel_eq] at hs
  exact (Except.ok.inj hs).symm

/-- What a build wrote can be read, unless a block holds more tombstones than its count field. -/
theorem Built.rdelsOn {base k limit rdelMinSeq : Nat} {es : List SstEntry} {rdels : List RdelEntry} {x : FinishedTable × Nat}
    {d : Device} (h : Built sh base k es rdels rdelMinSeq x d) (hb : Buildable sh base limit es rdels)
    (hwf : ∀ r ∈ rdels, RdelWF sh r) (hcount : ∀ b ∈ rdelBins sh rdels, b.length < 2 ^ 15) :
    RdelsOn sh d.blocks (base + (dataBins sh es).length) (rdelBins sh rdels) := by
  have hfit := pushableAll_rdel_mem hb.rdelsOk.1
  have hids := hb.ids
  have hflat : (rdelBins sh rdels).flatten = rdels := by
    rw [rdelBins, Packing.flatten_bins, Packing.flatten_pack]
  refine ⟨?_, by omega, h.tombstones⟩
  intro b hmem
  refine ⟨Packing.bins_ne_nil hfit b hmem, ?_, hcount b hmem, ?_⟩
  · refine @Packing.forall_mem_bins _ (fitsRdel sh) (fun b => (encodeRdels b).length + RDEL_TRAILER ≤ sh.BLOCK) rdels ?_ ?_ hfit b hmem
    · intro r hr
      simpa [fitsRdel, encodeRdels] using hfit r hr
    · intro b _ r _ hf
      rw [encodeRdels_concat, List.length_append]
      exact of_decide_eq_true hf
  · intro r hr
    exact hwf r (hflat ▸ List.mem_flatten.mpr ⟨b, hmem, hr⟩)

end Sstable

end Horton
