import Horton.Compress.Buffer
import Horton.Sstable.Reader

/-!
# Sealed blocks

What `seal_block` writes and what `inflate_data_block` makes of it.  The last two bytes of a body are the number of
restart points, or the flag of a compressed body with its length; `seal_inflate` says that the two are never confused and
that the body comes back.
-/

namespace Horton

namespace Sstable

variable {sh : Shape}

theorem leNat_two {n : Nat} (h : n ≤ U16_MAX) : Bytes.leNat (Bytes.leBytes 2 n) = n :=
  Bytes.leNat_leBytes_of_lt (lt_of_le_of_lt h (by decide))

theorem leNat_eight {n : Nat} (h : n ≤ U64_MAX) : Bytes.leNat (Bytes.leBytes 8 n) = n :=
  Bytes.leNat_leBytes_of_lt (lt_of_le_of_lt h (by decide))

/-! ### The checksum -/

theorem length_withCrc (body : Bytes) : (withCrc body).length = body.length + 4 := by simp [withCrc, CRC_LEN]

theorem take_withCrc {body : Bytes} (h : body.length = bodyEnd sh) : (withCrc body).take (bodyEnd sh) = body := by
  rw [withCrc, List.take_left' h]

theorem checkBlockCrc_withCrc {body : Bytes} (h : body.length = bodyEnd sh) (id : Nat) :
    checkBlockCrc sh (withCrc body) id = .ok () := by
  have hdrop : ((withCrc body).drop (bodyEnd sh)).take CRC_LEN = Bytes.leBytes CRC_LEN (crc32 body) := by
    rw [withCrc, List.drop_left' h, List.take_of_length_le (by simp)]
  have hcrc : Bytes.leNat (Bytes.leBytes CRC_LEN (crc32 body)) = crc32 body := by
    rw [Bytes.leNat_leBytes_of_lt]
    exact lt_of_lt_of_eq (crc32_lt body) (by decide)
  rw [checkBlockCrc, take_withCrc h, hdrop, hcrc]
  simp

theorem length_sealPlain {payload : Bytes} (h : payload.length ≤ bodyEnd sh) :
    (payload ++ Bytes.zeros (bodyEnd sh - payload.length)).length = bodyEnd sh := by
  simp
  omega

/-! ### The flag -/

private theorem flag_bits {c : Nat} (hc : c < 2 ^ 15) : (0x8000 ||| (c &&& 0x7FFF)) &&& 0x8000 ≠ 0 ∧
    (0x8000 ||| (c &&& 0x7FFF)) &&& 0x7FFF = c ∧ 0x8000 ||| (c &&& 0x7FFF) ≤ U16_MAX := by
  have hmask : c &&& 0x7FFF = c := by
    rw [show (0x7FFF : Nat) = 2 ^ 15 - 1 from rfl, Nat.and_two_pow_sub_one_eq_mod, Nat.mod_eq_of_lt hc]
  rw [hmask]
  refine ⟨?_, ?_, ?_⟩
  · intro hz
    have hbit : Nat.testBit 0x8000 15 = true := by decide
    have := congrArg (Nat.testBit · 15) hz
    simp [hbit] at this
  · rw [Nat.and_or_distrib_right, hmask, show (0x8000 &&& 0x7FFF : Nat) = 0 by decide, Nat.zero_or]
  · have : 0x8000 ||| c < 2 ^ 16 := Nat.or_lt_two_pow (by decide) (by omega)
    show 0x8000 ||| c ≤ 0xFFFF
    omega

/-- A count below the flag bit. -/
theorem count_bits {r : Nat} (hr : r < 2 ^ 15) : r &&& 0x8000 = 0 := by
  apply Nat.eq_of_testBit_eq
  intro i
  rw [Nat.testBit_and, Nat.zero_testBit, show (0x8000 : Nat) = 2 ^ 15 from rfl, Nat.testBit_two_pow]
  by_cases hi : 15 = i
  · subst hi
    rw [Nat.testBit_lt_two_pow hr]
    rfl
  · simp [hi]

/-- The last two bytes of a body are its trailer. -/
theorem trailer_drop {body tail : Bytes} {n : Nat} (hlen : (body ++ tail).length = bodyEnd sh) (ht : tail.length = 2)
    (hn : Bytes.leNat tail = n) : Bytes.leNat (((withCrc (body ++ tail)).drop (bodyEnd sh - 2)).take 2) = n := by
  have hdrop : (withCrc (body ++ tail)).drop (bodyEnd sh - 2) =
      tail ++ Bytes.leBytes CRC_LEN (crc32 (body ++ tail)) := by
    rw [withCrc, List.append_assoc]
    refine List.drop_left' ?_
    rw [List.length_append] at hlen
    omega
  rw [hdrop, List.take_left' ht, hn]

theorem flagCompressed_eq {c : Bytes} (h : c.length + 2 ≤ bodyEnd sh) : flagCompressed sh c =
    c ++ Bytes.zeros (bodyEnd sh - c.length - 2) ++ Bytes.leBytes 2 (0x8000 ||| (c.length &&& 0x7FFF)) := by
  unfold flagCompressed Bytes.splice
  rw [Bytes.length_leBytes, List.drop_of_length_le (by simp; omega), List.append_nil]
  congr 1
  rw [List.take_append, List.take_of_length_le (by omega), Bytes.zeros, Bytes.zeros, List.take_replicate]
  congr 2
  omega

theorem compressed_fits {body c : Bytes} (hc : compress sh.BLOCK body = some c) : c.length + 2 ≤ bodyEnd sh := by
  have hsave := (length_of_compress hc).2.1
  have hmin : COMPRESS_MIN_SAVING = 128 := rfl
  unfold bodyEnd CRC_LEN
  omega

theorem length_flagCompressed {body c : Bytes} (hc : compress sh.BLOCK body = some c) :
    (flagCompressed sh c).length = bodyEnd sh := by
  have hfit := compressed_fits hc
  rw [flagCompressed_eq hfit]
  simp
  omega

/-- A body that ends in a number of restart points is read as it is. -/
theorem inflate_plain {body front : Bytes} {r : Nat} (hr : r ≤ 128) (hbody : body = front ++ Bytes.leBytes 2 r)
    (hlen : body.length = bodyEnd sh) (id : Nat) : inflateDataBlock sh (withCrc body) id = .ok none := by
  have hu : U16_MAX = 0xFFFF := rfl
  have htrailer : Bytes.leNat (((withCrc body).drop (bodyEnd sh - 2)).take 2) = r := by
    rw [hbody] at hlen ⊢
    exact trailer_drop hlen (by simp) (leNat_two (by omega))
  unfold inflateDataBlock
  dsimp only
  rw [htrailer, if_pos (count_bits (by omega))]

/-- A compressed body is recognised, and comes back. -/
theorem inflate_flagged {body c : Bytes} (hc : compress sh.BLOCK body = some c) (id : Nat) :
    inflateDataBlock sh (withCrc (flagCompressed sh c)) id = .ok (some body) := by
  have hfit := compressed_fits hc
  have hflen := length_flagCompressed hc
  obtain ⟨hflag, hmask, hu16⟩ := flag_bits (length_of_compress hc).2.2
  have htrailer : Bytes.leNat (((withCrc (flagCompressed sh c)).drop (bodyEnd sh - 2)).take 2) =
      0x8000 ||| (c.length &&& 0x7FFF) := by
    rw [flagCompressed_eq hfit] at hflen ⊢
    exact trailer_drop hflen (by simp) (leNat_two hu16)
  have htake : (withCrc (flagCompressed sh c)).take c.length = c := by
    rw [withCrc, flagCompressed_eq hfit, List.append_assoc, List.append_assoc, List.take_left' rfl]
  have hdec : decompress c (bodyEnd sh) = .ok body := by
    have := decompress_compress hc []
    rwa [List.append_nil] at this
  unfold inflateDataBlock
  dsimp only
  rw [htrailer, if_neg hflag, hmask, if_neg (by omega), htake, hdec]

/-! ### Sealing and reading back -/

theorem dataBody_spec {buf body : Bytes} {payload : Nat} {restarts : List Nat} (hbuf : buf.length = sh.BLOCK)
    (h : dataBody sh buf payload restarts = .ok body) :
    body.length = bodyEnd sh ∧ ∃ front, body = front ++ Bytes.leBytes 2 restarts.length := by
  have hend : bodyEnd sh ≤ sh.BLOCK := Nat.sub_le _ _
  unfold dataBody at h
  dsimp only at h
  split_ifs at h with htail hroom
  have hbody := (Except.ok.inj h).symm
  have hflat : (restarts.flatMap (Bytes.leBytes 2)).length = restarts.length * 2 := by
    rw [List.length_flatMap]
    simp
  constructor
  · rw [hbody]
    simp only [List.length_append, List.length_take, Bytes.length_leBytes, Bytes.length_zeros, hflat]
    omega
  · exact ⟨_, hbody⟩

theorem sealData_ok {buf body raw : Bytes} {payload : Nat} {restarts : List Nat} {compressed : Bool}
    (h : dataBody sh buf payload restarts = .ok body) (hraw : sealData sh buf payload restarts compressed = .ok raw) :
    (∃ c, compressed = true ∧ compress sh.BLOCK body = some c ∧ raw = withCrc (flagCompressed sh c)) ∨
      (¬(compressed = true ∧ (compress sh.BLOCK body).isSome) ∧ raw = withCrc body) := by
  unfold sealData at hraw
  rw [h] at hraw
  cases compressed with
  | false => exact .inr ⟨by simp, (Except.ok.inj hraw).symm⟩
  | true =>
    cases hc : compress sh.BLOCK body with
    | none =>
      simp only [bind, Except.bind, hc] at hraw
      exact .inr ⟨by simp, (Except.ok.inj hraw).symm⟩
    | some c =>
      simp only [bind, Except.bind, hc] at hraw
      exact .inl ⟨c, rfl, rfl, (Except.ok.inj hraw).symm⟩

/-- A body that `compress` keeps comes back from its block; of the blocks that `seal_block` writes, exactly those it
compressed are inflated, to the body; and the decoder stays inside its buffers on every input. -/
theorem compress_seal_inflate (sh : Shape) :
    (∀ (body c : Bytes) (id : Nat), body.length = sh.BLOCK - 4 → compress sh.BLOCK body = some c →
      c.length < 2 ^ 15 ∧ c.length + COMPRESS_MIN_SAVING ≤ body.length ∧
      inflateDataBlock sh (withCrc (flagCompressed sh c)) id = .ok (some body)) ∧
    (∀ (buf body raw : Bytes) (payload : Nat) (restarts : List Nat) (compressed : Bool) (id : Nat),
      buf.length = sh.BLOCK → restarts.length ≤ 128 → dataBody sh buf payload restarts = .ok body →
      sealData sh buf payload restarts compressed = .ok raw →
      if compressed = true ∧ (compress sh.BLOCK body).isSome then inflateDataBlock sh raw id = .ok (some body)
      else raw = withCrc body ∧ inflateDataBlock sh raw id = .ok none) ∧
    ∀ src dst : Bytes, Compress.decompressAt src dst = (decompress src dst.length).mapError .err ∧
      Compress.decompressAt src dst ≠ .error .outside ∧ Compress.decompressAt src dst ≠ .error .unfinished := by
  refine ⟨?_, ?_, ?_⟩
  · intro body c id hbody hc
    obtain ⟨-, hsave, hshort⟩ := length_of_compress hc
    exact ⟨hshort, by omega, inflate_flagged hc id⟩
  · intro buf body raw payload restarts compressed id hbuf hrestarts hbody hraw
    obtain ⟨hlen, front, hfront⟩ := dataBody_spec hbuf hbody
    rcases sealData_ok hbody hraw with ⟨c, hcomp, hc, rfl⟩ | ⟨hplain, rfl⟩
    · rw [if_pos ⟨hcomp, by rw [hc]; rfl⟩]
      exact inflate_flagged hc id
    · rw [if_neg hplain]
      exact ⟨rfl, inflate_plain hrestarts hfront hlen id⟩
  · intro src dst
    rw [decompressAt_eq]
    refine ⟨rfl, ?_, ?_⟩ <;> cases decompress src dst.length <;> simp [Except.mapError]

/-- A body of zeros is kept compressed, and comes back. -/
theorem compress_seal_inflate_zeros : ∃ c, compress Shape.small.BLOCK (Bytes.zeros 508) = some c ∧
    inflateDataBlock Shape.small (withCrc (flagCompressed Shape.small c)) 0 = .ok (some (Bytes.zeros 508)) := by
  have hsome : (compress Shape.small.BLOCK (Bytes.zeros 508)).isSome = true := by decide +kernel
  obtain ⟨c, hc⟩ := Option.isSome_iff_exists.mp hsome
  exact ⟨c, hc, ((compress_seal_inflate Shape.small).1 _ c 0 (Bytes.length_zeros 508) hc).2.2⟩

end Sstable

end Horton
