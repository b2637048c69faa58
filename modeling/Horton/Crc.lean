import Horton.Lib.Bytes
import Horton.Lib.ShiftRegister

/-!
# CRC-32

The hand-rolled IEEE CRC-32 of `crc.rs`, slicing by eight.  The eight constant tables are functions of the byte they
are indexed with; words are `Nat`s below `2 ^ 32`.  `crc32_eq_bitwise` says that the checksum is that of the shift register
which takes in the data bit by bit.
-/

namespace Horton

namespace Crc

/-- One bit of the reflected recurrence. -/
def bitStep (crc : Nat) : Nat :=
  let mask := (2 ^ 32 - (crc &&& 1)) % 2 ^ 32
  (crc >>> 1) ^^^ (0xEDB88320 &&& mask)

/-- `TABLES[k][n]` as `make_tables` fills it. -/
def TABLES : Nat → Nat → Nat
  | 0, n => bitStep (bitStep (bitStep (bitStep (bitStep (bitStep (bitStep (bitStep n)))))))
  | k + 1, n =>
    let c := TABLES k n
    TABLES 0 (c &&& 0xFF) ^^^ (c >>> 8)

/-- The word-wise update for eight bytes. -/
def step8 (crc : Nat) (b0 b1 b2 b3 b4 b5 b6 b7 : UInt8) : Nat :=
  let one := Bytes.leNat [b0, b1, b2, b3] ^^^ crc
  let two := Bytes.leNat [b4, b5, b6, b7]
  TABLES 7 (one &&& 0xFF) ^^^ TABLES 6 ((one >>> 8) &&& 0xFF) ^^^ TABLES 5 ((one >>> 16) &&& 0xFF) ^^^
    TABLES 4 ((one >>> 24) &&& 0xFF) ^^^ TABLES 3 (two &&& 0xFF) ^^^ TABLES 2 ((two >>> 8) &&& 0xFF) ^^^
    TABLES 1 ((two >>> 16) &&& 0xFF) ^^^ TABLES 0 ((two >>> 24) &&& 0xFF)

def step1 (crc : Nat) (b : UInt8) : Nat :=
  let idx := (crc ^^^ b.toNat) &&& 0xFF
  TABLES 0 idx ^^^ (crc >>> 8)

/-- The two loops: whole chunks of eight bytes, then the remainder byte by byte. -/
def update (crc : Nat) : Bytes → Nat
  | b0 :: b1 :: b2 :: b3 :: b4 :: b5 :: b6 :: b7 :: rest => update (step8 crc b0 b1 b2 b3 b4 b5 b6 b7) rest
  | rest => rest.foldl step1 crc

/-! ### The checksum is a 32-bit word -/

theorem bitStep_lt {crc : Nat} (h : crc < 2 ^ 32) : bitStep crc < 2 ^ 32 := by
  unfold bitStep
  have h1 : crc >>> 1 < 2 ^ 32 := by rw [Nat.shiftRight_eq_div_pow]; omega
  exact Nat.xor_lt_two_pow h1 (lt_of_le_of_lt Nat.and_le_left (by decide))

theorem TABLES_lt {n : Nat} (h : n < 2 ^ 32) (k : Nat) : TABLES k n < 2 ^ 32 := by
  have h0 : ∀ {n}, n < 2 ^ 32 → TABLES 0 n < 2 ^ 32 := by
    intro n hn
    rw [TABLES]
    iterate 8 refine bitStep_lt ?_
    exact hn
  induction k with
  | zero => exact h0 h
  | succ k ih =>
    rw [TABLES]
    have h1 : TABLES k n >>> 8 < 2 ^ 32 := by rw [Nat.shiftRight_eq_div_pow]; omega
    exact Nat.xor_lt_two_pow (h0 (lt_of_le_of_lt Nat.and_le_right (by decide))) h1

private theorem TABLES_and_lt (k m : Nat) : TABLES k (m &&& 0xFF) < 2 ^ 32 :=
  TABLES_lt (lt_of_le_of_lt Nat.and_le_right (by decide)) k

private theorem foldl_step1_lt (rest : Bytes) (crc : Nat) (h : crc < 2 ^ 32) : rest.foldl step1 crc < 2 ^ 32 := by
  induction rest generalizing crc with
  | nil => exact h
  | cons b rest ih =>
    have h1 : crc >>> 8 < 2 ^ 32 := by rw [Nat.shiftRight_eq_div_pow]; omega
    rw [List.foldl_cons]
    exact ih _ (Nat.xor_lt_two_pow (TABLES_and_lt _ _) h1)

theorem step8_lt (crc : Nat) (b0 b1 b2 b3 b4 b5 b6 b7 : UInt8) : step8 crc b0 b1 b2 b3 b4 b5 b6 b7 < 2 ^ 32 := by
  unfold step8
  iterate 7 refine Nat.xor_lt_two_pow ?_ (TABLES_and_lt _ _)
  exact TABLES_and_lt _ _

theorem update_lt (crc : Nat) (data : Bytes) (h : crc < 2 ^ 32) : update crc data < 2 ^ 32 := by
  fun_induction update crc data with
  | case1 crc b0 b1 b2 b3 b4 b5 b6 b7 rest ih => exact ih (step8_lt crc b0 b1 b2 b3 b4 b5 b6 b7)
  | case2 crc rest => exact foldl_step1_lt rest crc h

/-! ### Bit by bit -/

/-- The polynomial, reflected. -/
def POLY : Nat := 0xEDB88320

/-- The checksum of a register that takes in one bit after the other. -/
def bitwise (data : Bytes) : Nat :=
  data.foldl (fun crc b => ShiftRegister.steps POLY 8 (crc ^^^ b.toNat)) 0xFFFFFFFF ^^^ 0xFFFFFFFF

open ShiftRegister in
theorem bitStep_eq (crc : Nat) : bitStep crc = step POLY crc := by
  unfold bitStep step
  rw [Nat.and_one_is_mod]
  by_cases h : crc % 2 = 1
  · rw [h, if_pos rfl]
    rfl
  · have h0 : crc % 2 = 0 := by omega
    rw [h0, if_neg (by decide)]
    exact Nat.xor_zero _

open ShiftRegister in
/-- A table has the byte's contribution when `k` more bytes follow it. -/
theorem TABLES_eq (k n : Nat) : TABLES k n = steps POLY (8 + 8 * k) n := by
  have hzero : ∀ n, TABLES 0 n = steps POLY 8 n := by
    intro n
    rw [TABLES]
    simp only [bitStep_eq, steps]
  induction k with
  | zero => exact hzero n
  | succ k ih =>
    have hmask : TABLES k n &&& 0xFF = TABLES k n % 2 ^ 8 := Nat.and_two_pow_sub_one_eq_mod _ 8
    rw [TABLES, hzero, hmask, ← steps_split, ih, ← steps_add, Nat.mul_succ, ← Nat.add_assoc]

open ShiftRegister in
/-- Four lookups take in a word, when `8 * k` more bits follow it. -/
private theorem four_lookups {w : Nat} (hw : w < 2 ^ 32) (k : Nat) :
    TABLES (k + 3) (w &&& 0xFF) ^^^ TABLES (k + 2) ((w >>> 8) &&& 0xFF) ^^^ TABLES (k + 1) ((w >>> 16) &&& 0xFF) ^^^
      TABLES k ((w >>> 24) &&& 0xFF) = steps POLY (8 * k + 32) w := by
  have hmask : ∀ x : Nat, x &&& 0xFF = x % 2 ^ 8 := fun x => Nat.and_two_pow_sub_one_eq_mod x 8
  have hlast : (w >>> 24) % 2 ^ 8 = w >>> 24 := by
    rw [Nat.shiftRight_eq_div_pow]
    omega
  have h0 := steps_peel POLY 8 (8 + 8 * (k + 2)) w
  have h1 := steps_peel POLY 8 (8 + 8 * (k + 1)) (w >>> 8)
  have h2 := steps_peel POLY 8 (8 + 8 * k) (w >>> 16)
  rw [← Nat.shiftRight_add] at h1 h2
  simp only [hmask, TABLES_eq, hlast]
  have e0 : 8 * k + 32 = 8 + (8 + 8 * (k + 2)) := by omega
  have e1 : 8 + 8 * (k + 2) = 8 + (8 + 8 * (k + 1)) := by omega
  have e2 : 8 + 8 * (k + 1) = 8 + (8 + 8 * k) := by omega
  have e3 : 8 + 8 * (k + 3) = 8 + (8 + 8 * (k + 2)) := by omega
  rw [e0, h0, e3, Nat.xor_assoc, Nat.xor_assoc]
  congr 1
  rw [e1, h1]
  congr 1
  rw [e2, h2]

open ShiftRegister in
private theorem word_bytes (b0 b1 b2 b3 : UInt8) :
    word [b0.toNat, b1.toNat, b2.toNat, b3.toNat] = Bytes.leNat [b0, b1, b2, b3] := by
  have hjoin : ∀ (b : UInt8) (w : Nat), b.toNat ^^^ (w <<< 8) = b.toNat + 256 * w := by
    intro b w
    have hb : b.toNat < 2 ^ 8 := b.toNat_lt
    have hlow : (b.toNat + 256 * w) % 2 ^ 8 = b.toNat := by omega
    have hhigh : (b.toNat + 256 * w) >>> 8 = w := by
      rw [Nat.shiftRight_eq_div_pow]
      omega
    have h := low_xor_high 8 (b.toNat + 256 * w)
    rwa [hlow, hhigh] at h
  simp only [word, List.foldr_cons, List.foldr_nil, hjoin, Bytes.leNat]

open ShiftRegister in
/-- The word-wise update is eight byte-wise ones. -/
theorem step8_eq {crc : Nat} (h : crc < 2 ^ 32) (b0 b1 b2 b3 b4 b5 b6 b7 : UInt8) :
    step8 crc b0 b1 b2 b3 b4 b5 b6 b7 =
      [b0, b1, b2, b3, b4, b5, b6, b7].foldl (fun crc b => steps POLY 8 (crc ^^^ b.toNat)) crc := by
  have hword : ∀ a b c d : UInt8, Bytes.leNat [a, b, c, d] < 2 ^ 32 := by
    intro a b c d
    have hlt := Bytes.leNat_lt [a, b, c, d]
    simp only [List.length_cons, List.length_nil] at hlt
    omega
  have hone := four_lookups (Nat.xor_lt_two_pow (hword b0 b1 b2 b3) h) 4
  have htwo := four_lookups (hword b4 b5 b6 b7) 0
  have hfeed : ∀ (c : Nat) (a b x y : UInt8), [a, b, x, y].foldl (fun crc b => steps POLY 8 (crc ^^^ b.toNat)) c =
      steps POLY 32 (c ^^^ Bytes.leNat [a, b, x, y]) := by
    intro c a b x y
    rw [← word_bytes]
    exact foldl_feed POLY c [a.toNat, b.toNat, x.toNat, y.toNat]
  have hsplit : [b0, b1, b2, b3, b4, b5, b6, b7] = [b0, b1, b2, b3] ++ [b4, b5, b6, b7] := rfl
  rw [hsplit, List.foldl_append, hfeed, hfeed, steps_xor, ← steps_add, ← htwo, Nat.xor_comm crc]
  have hsum : steps POLY (8 * 4 + 32) (Bytes.leNat [b0, b1, b2, b3] ^^^ crc) =
      steps POLY (32 + 32) (Bytes.leNat [b0, b1, b2, b3] ^^^ crc) := by rw [Nat.mul_comm]
  rw [← hsum, ← hone]
  simp only [step8, Nat.xor_assoc]

open ShiftRegister in
theorem step1_eq (crc : Nat) (b : UInt8) : step1 crc b = steps POLY 8 (crc ^^^ b.toNat) := by
  have hb : (crc ^^^ b.toNat) >>> 8 = crc >>> 8 := by
    have hzero : b.toNat >>> 8 = 0 := by
      have := b.toNat_lt
      rw [Nat.shiftRight_eq_div_pow]
      omega
    rw [Nat.shiftRight_xor_distrib, hzero, Nat.xor_zero]
  have hmask : (crc ^^^ b.toNat) &&& 0xFF = (crc ^^^ b.toNat) % 2 ^ 8 := Nat.and_two_pow_sub_one_eq_mod _ 8
  rw [step1, hmask, TABLES_eq, ← hb]
  exact (steps_split POLY 8 _).symm

theorem update_eq {crc : Nat} (h : crc < 2 ^ 32) (data : Bytes) :
    update crc data = data.foldl (fun crc b => ShiftRegister.steps POLY 8 (crc ^^^ b.toNat)) crc := by
  fun_induction update crc data with
  | case1 crc b0 b1 b2 b3 b4 b5 b6 b7 rest ih =>
    have hcons : b0 :: b1 :: b2 :: b3 :: b4 :: b5 :: b6 :: b7 :: rest = [b0, b1, b2, b3, b4, b5, b6, b7] ++ rest := rfl
    rw [ih (step8_lt crc b0 b1 b2 b3 b4 b5 b6 b7), step8_eq h, hcons, List.foldl_append]
  | case2 crc rest =>
    congr 1
    funext crc b
    exact step1_eq crc b

end Crc

/-- The IEEE CRC-32 of `data`. -/
def crc32 (data : Bytes) : Nat := Crc.update 0xFFFFFFFF data ^^^ 0xFFFFFFFF

theorem crc32_lt (data : Bytes) : crc32 data < 2 ^ 32 :=
  Nat.xor_lt_two_pow (Crc.update_lt _ _ (by decide)) (by decide)

/-- Slicing by eight computes the CRC-32 of the bit-by-bit register. -/
theorem crc32_eq_bitwise (data : Bytes) : crc32 data = Crc.bitwise data := by
  rw [crc32, Crc.bitwise, Crc.update_eq (by decide)]

end Horton
