import Mathlib.Algebra.GroupWithZero.Nat
import Mathlib.Data.List.Basic
import Mathlib.Data.List.Lex
import Mathlib.Data.Nat.Basic
import Mathlib.Order.Lattice

/-!
# Bytes on a block

Byte strings, little-endian integers of a fixed width, and the block a write leaves behind when only a prefix of it
lands (`tear`).  Integers are `Nat`; `leBytes n v` keeps the low `n` bytes of `v`, so the round trip is exact for
values below `256 ^ n`.
-/

abbrev Bytes := List UInt8

/-- Bytes in numeric order; with it byte strings are ordered lexicographically, as byte slices are. -/
instance instLinearOrderUInt8 : LinearOrder UInt8 where
  le_refl _ := UInt8.le_refl _
  le_trans _ _ _ := UInt8.le_trans
  le_antisymm _ _ := UInt8.le_antisymm
  le_total := UInt8.le_total
  toDecidableLE := inferInstance
  toDecidableLT := inferInstance
  toDecidableEq := inferInstance
  lt_iff_le_not_ge a b := by
    rw [UInt8.lt_iff_toNat_lt, UInt8.le_iff_toNat_le, UInt8.le_iff_toNat_le]
    omega

namespace Bytes

/-- The low `n` bytes of `v`, least significant first. -/
def leBytes : Nat → Nat → Bytes
  | 0, _ => []
  | n + 1, v => UInt8.ofNat (v % 256) :: leBytes n (v / 256)

/-- The value of a little-endian byte string. -/
def leNat : Bytes → Nat
  | [] => 0
  | b :: bs => b.toNat + 256 * leNat bs

/-- `bs.get(off..off + len)`: the slice, when it lies inside the string. -/
def slice (bs : Bytes) (off len : Nat) : Option Bytes :=
  if off + len ≤ bs.length then some ((bs.drop off).take len) else none

def allZero (bs : Bytes) : Bool := bs.all (· == 0)

def zeros (n : Nat) : Bytes := List.replicate n 0

/-- `buf[off..off + bs.len()].copy_from_slice(bs)`. -/
def splice (buf : Bytes) (off : Nat) (bs : Bytes) : Bytes := buf.take off ++ bs ++ buf.drop (off + bs.length)

/-- The block that a write of `new` over `old` leaves when its first `k` bytes land. -/
def tear (k : Nat) (new old : Bytes) : Bytes := new.take k ++ old.drop k

/-! ### Little-endian integers -/

@[simp] theorem length_leBytes (n v : Nat) : (leBytes n v).length = n := by
  induction n generalizing v with
  | zero => rfl
  | succ n ih => simp [leBytes, ih]

theorem leNat_leBytes (n v : Nat) : leNat (leBytes n v) = v % 256 ^ n := by
  induction n generalizing v with
  | zero => simp [leBytes, leNat, Nat.mod_one]
  | succ n ih =>
    have hb : (UInt8.ofNat (v % 256)).toNat = v % 256 := by simp
    rw [leBytes, leNat, ih, hb, Nat.pow_succ, Nat.mul_comm (256 ^ n), Nat.mod_mul]

theorem leNat_leBytes_of_lt {n v : Nat} (h : v < 256 ^ n) : leNat (leBytes n v) = v := by
  rw [leNat_leBytes, Nat.mod_eq_of_lt h]

theorem leNat_lt (bs : Bytes) : leNat bs < 256 ^ bs.length := by
  induction bs with
  | nil => simp [leNat]
  | cons b bs ih =>
    have hb : b.toNat < 256 := b.toNat_lt
    rw [leNat, List.length_cons, Nat.pow_succ]
    omega

theorem leBytes_leNat (bs : Bytes) : leBytes bs.length (leNat bs) = bs := by
  induction bs with
  | nil => rfl
  | cons b bs ih =>
    have hb : b.toNat < 256 := b.toNat_lt
    have h1 : (b.toNat + 256 * leNat bs) % 256 = b.toNat := by omega
    have h2 : (b.toNat + 256 * leNat bs) / 256 = leNat bs := by omega
    rw [List.length_cons, leBytes, leNat, h1, h2, ih, UInt8.ofNat_toNat]

theorem leNat_of_zero {bs : Bytes} (h : ∀ b ∈ bs, b = 0) : leNat bs = 0 := by
  induction bs with
  | nil => rfl
  | cons b bs ih =>
    rw [leNat, ih fun x hx => h x (by simp [hx]), h b (by simp)]
    rfl

/-! ### Slices and zero bytes -/

theorem slice_append {a b c : Bytes} : slice (a ++ b ++ c) a.length b.length = some b := by
  simp [slice]

/-- A field of a concatenation, read at the sum of the lengths before it. -/
theorem slice_field {fs : List Bytes} (tail : Bytes) (i : Nat) {f : Bytes} (hf : fs[i]? = some f) {off len : Nat}
    (ho : off = ((fs.take i).map List.length).sum) (hl : len = f.length) :
    slice (fs.flatten ++ tail) off len = some f := by
  subst ho hl
  have hi : i < fs.length := (List.getElem?_eq_some_iff.mp hf).1
  have hsplit : fs.flatten ++ tail = (fs.take i).flatten ++ f ++ ((fs.drop (i + 1)).flatten ++ tail) := by
    conv => lhs; rw [← List.take_append_drop i fs, List.drop_eq_getElem_cons hi]
    rw [(List.getElem?_eq_some_iff.mp hf).2]
    simp [List.append_assoc]
  rw [hsplit, ← List.length_flatten]
  exact slice_append

theorem getElem?_of_slice {bs : Bytes} {i : Nat} {b : UInt8} (h : slice bs i 1 = some [b]) : bs[i]? = some b := by
  unfold slice at h
  split at h
  · rename_i hi
    rw [Option.some_inj, List.take_one] at h
    simpa [List.head?_drop] using congrArg List.head? h
  · simp at h

theorem slice_eq_some {bs : Bytes} {off len : Nat} {s : Bytes} (h : slice bs off len = some s) :
    off + len ≤ bs.length ∧ s = (bs.drop off).take len := by
  unfold slice at h
  split at h
  · exact ⟨by assumption, by simpa using h.symm⟩
  · simp at h

theorem length_slice {bs : Bytes} {off len : Nat} {s : Bytes} (h : slice bs off len = some s) :
    s.length = len := by
  obtain ⟨hle, rfl⟩ := slice_eq_some h
  simp; omega

/-- Slices that follow one another make one slice. -/
theorem slice_trans {bs x y : Bytes} {off off' a b : Nat} (hx : slice bs off a = some x)
    (hy : slice bs off' b = some y) (ho : off' = off + a) : slice bs off (a + b) = some (x ++ y) := by
  subst ho
  obtain ⟨hx1, rfl⟩ := slice_eq_some hx
  obtain ⟨hy1, rfl⟩ := slice_eq_some hy
  rw [slice, if_pos (by omega), List.take_add, List.drop_drop]

theorem slice_of_getElem? {bs : Bytes} {i : Nat} {b : UInt8} (h : bs[i]? = some b) : slice bs i 1 = some [b] := by
  obtain ⟨hi, rfl⟩ := List.getElem?_eq_some_iff.mp h
  rw [slice, if_pos (by omega), List.drop_eq_getElem_cons hi]
  rfl

@[simp] theorem length_zeros (n : Nat) : (zeros n).length = n := by simp [zeros]

@[simp] theorem allZero_zeros (n : Nat) : allZero (zeros n) = true := by simp [allZero, zeros]

@[simp] theorem allZero_nil : allZero [] = true := rfl

theorem allZero_iff {bs : Bytes} : allZero bs = true ↔ bs = zeros bs.length := by
  simp [allZero, zeros, List.eq_replicate_iff]

@[simp] theorem drop_zeros (k n : Nat) : (zeros n).drop k = zeros (n - k) := by simp [zeros]

/-! ### Torn blocks -/

theorem tear_zero (new old : Bytes) : tear 0 new old = old := by simp [tear]

theorem tear_full {k : Nat} {new old : Bytes} (h : new.length = old.length) (hk : new.length ≤ k) :
    tear k new old = new := by
  simp [tear, List.take_of_length_le hk, List.drop_of_length_le (h ▸ hk)]

theorem length_tear {k : Nat} {new old : Bytes} (h : new.length = old.length) :
    (tear k new old).length = old.length := by
  simp [tear]; omega

theorem tear_append {k : Nat} {a b old : Bytes} (h : a.length ≤ k) :
    tear k (a ++ b) old = a ++ (tear k (a ++ b) old).drop a.length := by
  have h1 : (tear k (a ++ b) old).take a.length = a := by
    simp [tear, List.take_append, List.take_of_length_le h]
  conv => lhs; rw [← List.take_append_drop a.length (tear k (a ++ b) old), h1]

/-- Behind the landed bytes a torn block is the old one. -/
theorem drop_tear {k o : Nat} {new old : Bytes} (h : new.length = old.length) (hk : k ≤ o) :
    (tear k new old).drop o = old.drop o := by
  by_cases hn : k ≤ new.length
  · have hl : (new.take k).length = k := by simp; omega
    rw [tear, List.drop_append, hl, List.drop_of_length_le (by omega), List.nil_append, List.drop_drop]
    congr 1; omega
  · rw [List.drop_of_length_le (by rw [length_tear h]; omega), List.drop_of_length_le (by omega)]

theorem getElem?_tear {k : Nat} {new old : Bytes} (h : new.length = old.length) (i : Nat) :
    (tear k new old)[i]? = if i < k then new[i]? else old[i]? := by
  by_cases hk : k ≤ new.length
  · rw [tear, List.getElem?_append, List.length_take, min_eq_left hk]
    split
    · rw [List.getElem?_take_of_lt (by assumption)]
    · rw [List.getElem?_drop]
      congr 1
      omega
  · rw [tear_full h (by omega)]
    split
    · rfl
    · rw [List.getElem?_eq_none (by omega), List.getElem?_eq_none (by omega)]

/-- Tearing the same block again. -/
theorem tear_tear {k k' : Nat} {new old : Bytes} (h : new.length = old.length) :
    tear k' new (tear k new old) = tear (max k k') new old := by
  refine List.ext_getElem? fun i => ?_
  rw [getElem?_tear (h.trans (length_tear h).symm), getElem?_tear h, getElem?_tear h]
  by_cases h1 : i < k' <;> by_cases h2 : i < k <;> simp [h1, h2]

end Bytes
