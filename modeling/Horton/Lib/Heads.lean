import Mathlib.Data.List.Basic
import Mathlib.Order.Defs.Unbundled

/-!
# Heads of a merge

A merge of several sources by key, in either direction: each source is parked on its head, the first of its elements with
the next key, and the merge steps over one key after the other.  `IsHead r` is the position of one source, for keys ordered
by `r`; on the next key of all heads, the heads there are what every source holds for that key (`IsHead.filter_eq`).
-/

namespace Horton

variable {α κ : Type} [DecidableEq κ] {r : κ → κ → Prop} {key : α → κ} {l : List α} {P P' : κ → Prop} {o : Option α} {a : α}
  {k : κ}

/-- `o` is the head of `l` in the region `P`: the first element of the `r`-least key there. -/
def IsHead (r : κ → κ → Prop) (key : α → κ) (l : List α) (P : κ → Prop) : Option α → Prop
  | none => ∀ a ∈ l, ¬P (key a)
  | some a => P (key a) ∧ l.find? (fun b => decide (key b = key a)) = some a ∧ ∀ b ∈ l, P (key b) → r (key a) (key b)

namespace IsHead

theorem mem (h : IsHead r key l P (some a)) : a ∈ l := List.mem_of_find?_eq_some h.2.1

/-- On a key that no head precedes, the head is what the source holds for the key. -/
theorem filter_eq [Std.Antisymm r] (h : IsHead r key l P o) (hk : P k) (hle : ∀ a, o = some a → r k (key a)) :
    o.filter (fun a => decide (key a = k)) = l.find? fun a => decide (key a = k) := by
  cases o with
  | none =>
    symm
    rw [Option.filter_none, List.find?_eq_none]
    intro a ha hka
    rw [← of_decide_eq_true hka] at hk
    exact h a ha hk
  | some a =>
    by_cases hak : key a = k
    · rw [Option.filter_some, if_pos (decide_eq_true hak), ← hak]
      exact h.2.1.symm
    · rw [Option.filter_some, if_neg (by simpa using hak)]
      symm
      rw [List.find?_eq_none]
      intro b hb hbk
      have hkey := of_decide_eq_true hbk
      have hab := h.2.2 b hb (hkey ▸ hk)
      rw [hkey] at hab
      exact hak (antisymm hab (hle a rfl))

/-- A head that lies in the next region stays. -/
theorem stays (h : IsHead r key l P o) (hsub : ∀ x, P' x → P x) (ho : ∀ a, o = some a → P' (key a)) :
    IsHead r key l P' o := by
  cases o with
  | none => exact fun a ha hP => h a ha (hsub _ hP)
  | some a => exact ⟨ho a rfl, h.2.1, fun b hb hP => h.2.2 b hb (hsub _ hP)⟩

/-- In a list ordered by `r`, the first element of the region among those that `v` picks is their head. -/
theorem of_find {v : α → Bool} {p : κ → Bool} (hr : ∀ x, r x x) (hs : l.Pairwise fun a b => r (key a) (key b)) :
    IsHead r key (l.filter v) (p · = true) (l.find? fun a => v a && p (key a)) := by
  cases hfind : l.find? fun a => v a && p (key a) with
  | none =>
    intro a ha hpa
    obtain ⟨hal, hva⟩ := List.mem_filter.mp ha
    have := List.find?_eq_none.mp hfind a hal
    simp [hva, hpa] at this
  | some a =>
    obtain ⟨ha, as, bs, rfl, has⟩ := List.find?_eq_some_iff_append.mp hfind
    obtain ⟨hva, hpa⟩ := Bool.and_eq_true_iff.mp ha
    refine ⟨hpa, ?_, ?_⟩
    · rw [List.find?_filter, List.find?_eq_some_iff_append]
      refine ⟨by simp [hva], as, bs, rfl, fun b hb => ?_⟩
      have hnot := has b hb
      by_cases hkey : key b = key a
      · rw [hkey, hpa, Bool.and_true] at hnot
        simp only [Bool.not_eq_true'] at hnot
        simp [hnot]
      · simp [hkey]
    · intro b hb hpb
      obtain ⟨hbl, hvb⟩ := List.mem_filter.mp hb
      rcases List.mem_append.mp hbl with hbl | hbl
      · have hnot := has b hbl
        simp [hvb, hpb] at hnot
      · rcases List.mem_cons.mp hbl with rfl | hbl
        · exact hr _
        · exact (List.pairwise_cons.mp (List.pairwise_append.mp hs).2.1).1 b hbl

/-! ### Heads of joined lists -/

section Append

variable {l₁ l₂ : List α} {b : α}

/-- What lies outside of the region does not count. -/
theorem append_left (h : IsHead r key l₁ P o) (hout : ∀ x ∈ l₂, ¬P (key x)) : IsHead r key (l₁ ++ l₂) P o := by
  cases o with
  | none =>
    intro x hx
    exact (List.mem_append.mp hx).elim (h x) (hout x)
  | some a =>
    refine ⟨h.1, ?_, fun x hx hP => ?_⟩
    · rw [List.find?_append, h.2.1, Option.some_or]
    · exact (List.mem_append.mp hx).elim (fun hx => h.2.2 x hx hP) fun hx => absurd hP (hout x hx)

/-- The first of the least key wins. -/
theorem append_first (h : IsHead r key l₁ P (some a)) (hle : ∀ x ∈ l₂, P (key x) → r (key a) (key x)) :
    IsHead r key (l₁ ++ l₂) P (some a) := by
  refine ⟨h.1, ?_, fun x hx hP => ?_⟩
  · rw [List.find?_append, h.2.1, Option.some_or]
  · exact (List.mem_append.mp hx).elim (fun hx => h.2.2 x hx hP) fun hx => hle x hx hP

/-- A head of the second list that comes before all of the first. -/
theorem append_second (h : IsHead r key l₂ P (some b)) (hle : ∀ x ∈ l₁, P (key x) → r (key b) (key x) ∧ key x ≠ key b) :
    IsHead r key (l₁ ++ l₂) P (some b) := by
  refine ⟨h.1, ?_, fun x hx hP => ?_⟩
  · have hnone : l₁.find? (fun x => decide (key x = key b)) = none := by
      rw [List.find?_eq_none]
      intro x hx heq
      have hkey := of_decide_eq_true heq
      exact (hle x hx (hkey ▸ h.1)).2 hkey
    rw [List.find?_append, hnone, Option.none_or]
    exact h.2.1
  · exact (List.mem_append.mp hx).elim (fun hx => (hle x hx hP).1) fun hx => h.2.2 x hx hP

theorem append_none (h : IsHead r key l₂ P o) (hout : ∀ x ∈ l₁, ¬P (key x)) : IsHead r key (l₁ ++ l₂) P o := by
  cases o with
  | none =>
    intro x hx
    exact (List.mem_append.mp hx).elim (hout x) (h x)
  | some b => exact h.append_second fun x hx hP => absurd hP (hout x hx)

end Append

end IsHead

end Horton
