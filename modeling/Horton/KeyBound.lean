import Horton.Basic

/-!
# Key bounds

The immediate successor of a key bound, as `manifest.rs` computes it.  Compaction cuts the key space at successors: no key of
at most `KEY_MAX` bytes lies between a bound and its successor (`successor_immediate`).
-/

namespace Horton

namespace KeyBound

/-- The loop of `successor` over a bound of full length: the last byte below `i` that is not `0xFF` counts up, and what
follows it goes. -/
def carry (b : Bytes) : Nat → Option Bytes
  | 0 => none
  | i + 1 => if b.getD i 0 ≠ 0xFF then some (b.take i ++ [b.getD i 0 + 1]) else carry b i

/-- The smallest bound strictly after `b`; `none` when `b` is empty or the greatest key. -/
def successor (sh : Shape) (b : Bytes) : Option Bytes :=
  if b.length = 0 then none
  else if b.length < sh.KEY_MAX then some (b ++ [0])
  else carry b b.length

variable {sh : Shape} {b k s : Bytes}

theorem nil_le (l : Bytes) : [] ≤ l := not_lt.mp (List.not_lt_nil l)

theorem cons_le_cons_iff {x y : UInt8} {l m : Bytes} : x :: l ≤ y :: m ↔ x < y ∨ x = y ∧ l ≤ m := by
  rw [← not_lt, List.cons_lt_cons_iff, ← not_lt (a := m)]
  constructor
  · intro h
    rcases lt_trichotomy x y with hlt | rfl | hgt
    · exact Or.inl hlt
    · exact Or.inr ⟨rfl, fun hl => h (Or.inr ⟨rfl, hl⟩)⟩
    · exact absurd (Or.inl hgt) h
  · rintro (hlt | ⟨rfl, hl⟩) (hgt | ⟨heq, hl'⟩)
    · exact lt_asymm hlt hgt
    · exact absurd hlt (heq ▸ lt_irrefl _)
    · exact lt_irrefl _ hgt
    · exact hl hl'

/-- Nothing sorts between a string and itself with a zero byte behind. -/
theorem le_iff_lt_append_zero (b k : Bytes) : k ≤ b ↔ k < b ++ [0] := by
  induction b generalizing k with
  | nil =>
    cases k with
    | nil => simp
    | cons c k => simp [List.cons_lt_cons_iff]
  | cons a b ih =>
    cases k with
    | nil => simp [nil_le]
    | cons c k => rw [List.cons_append, cons_le_cons_iff, List.cons_lt_cons_iff, ih]

/-- The greatest bytes make the greatest string of at most that length. -/
theorem le_replicate {n : Nat} (h : k.length ≤ n) : k ≤ List.replicate n (0xFF : UInt8) := by
  induction k generalizing n with
  | nil => exact nil_le _
  | cons c k ih =>
    cases n with
    | zero => simp at h
    | succ n =>
      have hc : c ≤ 0xFF := by
        have := c.toNat_lt
        rw [UInt8.le_iff_toNat_le]
        simpa using Nat.le_of_lt_succ this
      rw [List.replicate_succ, cons_le_cons_iff]
      rcases lt_or_eq_of_le hc with hlt | heq
      · exact Or.inl hlt
      · exact Or.inr ⟨heq, ih (by simpa using h)⟩

/-- Behind greatest bytes only a carry goes on. -/
theorem le_iff_lt_carry {x : UInt8} (hx : x ≠ 0xFF) (p : Bytes) (m : Nat) (hk : k.length ≤ p.length + 1 + m) :
    k ≤ p ++ x :: List.replicate m 0xFF ↔ k < p ++ [x + 1] := by
  induction p generalizing k with
  | nil =>
    cases k with
    | nil => simp [nil_le]
    | cons c k =>
      have hlen : k.length ≤ m := by simp at hk; omega
      have hsucc : c < x + 1 ↔ c < x ∨ c = x := by
        have h1 := x.toNat_lt
        have h2 : x.toNat ≠ 255 := fun hc => hx (UInt8.toNat_inj.mp (by simpa using hc))
        have h3 : (x + 1).toNat = x.toNat + 1 := by
          rw [UInt8.toNat_add]
          have h4 : (1 : UInt8).toNat = 1 := rfl
          omega
        rw [UInt8.lt_iff_toNat_lt, UInt8.lt_iff_toNat_lt, ← UInt8.toNat_inj, h3]
        omega
      simp only [List.nil_append, cons_le_cons_iff, List.cons_lt_cons_iff, hsucc, List.not_lt_nil, and_false, or_false,
        le_replicate hlen, and_true]
  | cons a p ih =>
    cases k with
    | nil => simp [nil_le]
    | cons c k =>
      have hlen : k.length ≤ p.length + 1 + m := by simp at hk; omega
      rw [List.cons_append, List.cons_append, cons_le_cons_iff, List.cons_lt_cons_iff, ih hlen]

/-- What the loop finds: a byte that counts up in front of greatest bytes, or greatest bytes only. -/
theorem carry_spec {n : Nat} (hn : n ≤ b.length) :
    (∃ p x m, b.take n = p ++ x :: List.replicate m 0xFF ∧ x ≠ 0xFF ∧ carry b n = some (p ++ [x + 1])) ∨
      (b.take n = List.replicate n 0xFF ∧ carry b n = none) := by
  induction n with
  | zero => exact Or.inr ⟨by simp, rfl⟩
  | succ n ih =>
    have hlt : n < b.length := hn
    have hget : b.getD n 0 = b[n] := by simp [List.getD_eq_getElem?_getD, hlt]
    have htake : b.take (n + 1) = b.take n ++ [b[n]] := List.take_succ_eq_append_getElem hlt
    rw [carry, hget, htake]
    by_cases hff : b[n] = 0xFF
    · rw [if_neg (not_not.mpr hff), hff]
      rcases ih (by omega) with ⟨p, x, m, htake, hx, hc⟩ | ⟨htake, hc⟩
      · refine Or.inl ⟨p, x, m + 1, ?_, hx, hc⟩
        rw [htake, List.replicate_succ', List.append_assoc, List.cons_append]
      · refine Or.inr ⟨?_, hc⟩
        rw [htake, List.replicate_succ']
    · rw [if_pos hff]
      exact Or.inl ⟨b.take n, b[n], 0, rfl, hff, rfl⟩

theorem successor_some (hb : b.length ≤ sh.KEY_MAX) (h : successor sh b = some s) (hk : k.length ≤ sh.KEY_MAX) :
    k ≤ b ↔ k < s := by
  unfold successor at h
  split_ifs at h with h1 h2
  · rw [← Option.some.inj h]
    exact le_iff_lt_append_zero b k
  · rcases carry_spec (le_refl b.length) with ⟨p, x, m, htake, hx, hc⟩ | ⟨-, hc⟩
    · rw [List.take_length] at htake
      rw [hc] at h
      rw [← Option.some.inj h, htake]
      apply le_iff_lt_carry hx
      have hlen := congrArg List.length htake
      simp at hlen
      omega
    · rw [hc] at h
      cases h

theorem successor_none (hb : b.length ≤ sh.KEY_MAX) :
    successor sh b = none ↔ b = [] ∨ b = List.replicate sh.KEY_MAX 0xFF := by
  have hpos := sh.assertKey.1
  unfold successor
  by_cases h1 : b.length = 0
  · rw [if_pos h1]
    exact ⟨fun _ => Or.inl (List.length_eq_zero_iff.mp h1), fun _ => rfl⟩
  have hne : b ≠ [] := fun hc => h1 (by rw [hc]; rfl)
  rw [if_neg h1]
  by_cases h2 : b.length < sh.KEY_MAX
  · rw [if_pos h2]
    constructor
    · intro hc
      cases hc
    · rintro (hc | hc)
      · exact absurd hc hne
      · rw [hc, List.length_replicate] at h2
        exact absurd h2 (lt_irrefl _)
  · have hlen : b.length = sh.KEY_MAX := by omega
    rw [if_neg h2]
    rcases carry_spec (le_refl b.length) with ⟨p, x, m, htake, hx, hc⟩ | ⟨htake, hc⟩
    · rw [List.take_length] at htake
      rw [hc]
      constructor
      · intro hn
        cases hn
      · rintro (hn | hn)
        · exact absurd hn hne
        · have hmem : x ∈ b := by rw [htake]; simp
          rw [hn] at hmem
          exact absurd (List.eq_of_mem_replicate hmem) hx
    · rw [List.take_length, hlen] at htake
      rw [hc]
      exact ⟨fun _ => Or.inr htake, fun _ => rfl⟩

/-- The successor is the immediate one: no key lies between, and there is none only behind the empty bound and the
greatest key. -/
theorem successor_immediate (sh : Shape) (b : Bytes) (hb : b.length ≤ sh.KEY_MAX) :
    (∀ s, successor sh b = some s → b < s ∧ ∀ k : Bytes, k.length ≤ sh.KEY_MAX → (k ≤ b ↔ k < s)) ∧
      (successor sh b = none ↔ b = [] ∨ b = List.replicate sh.KEY_MAX 0xFF) ∧
      (b ≠ [] → successor sh b = none → ∀ k : Bytes, k.length ≤ sh.KEY_MAX → k ≤ b) := by
  refine ⟨fun s hs => ⟨(successor_some hb hs hb).mp le_rfl, fun k hk => successor_some hb hs hk⟩, successor_none hb, ?_⟩
  intro hne hnone k hk
  rcases (successor_none hb).mp hnone with hc | hc
  · exact absurd hc hne
  · rw [hc]
    exact le_replicate hk

/-- A bound of full length ends in a carry. -/
theorem successor_immediate_carry : List.replicate 15 7 ++ [0xFF] < List.replicate 14 7 ++ [(8 : UInt8)] ∧
    ¬∃ k : Bytes, k.length ≤ 16 ∧ List.replicate 15 7 ++ [0xFF] < k ∧ k < List.replicate 14 7 ++ [8] := by
  obtain ⟨hlt, himmediate⟩ := (successor_immediate Shape.small (List.replicate 15 7 ++ [0xFF]) (by decide)).1
    (List.replicate 14 7 ++ [8]) (by decide)
  refine ⟨hlt, ?_⟩
  rintro ⟨k, hk, hbelow, habove⟩
  exact not_le.mpr hbelow ((himmediate k hk).mpr habove)

end KeyBound

end Horton
