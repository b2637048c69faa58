import Horton.Lib.Spans
import Mathlib.Data.List.Perm.Basic

/-!
# Open spans

A pass over spans in start order keeps those that are open at its key, except a span that a newer one reaching at least as
far hides.  It may also let go of a span and note the range where the span is missed.  `Tracks` is the invariant of such a
pass: what is open stands for everything seen, from its key on and outside of the ranges noted.
-/

namespace Horton

/-! ### Removal without order -/

section Removal

variable {α : Type}

/-- Removes the elements with `p` from front to back, the last element moving into each gap. -/
def swapRemove (p : α → Bool) : Nat → List α → List α
  | 0, l => l
  | _ + 1, [] => []
  | n + 1, a :: l => if p a then swapRemove p n (l.getLast?.toList ++ l.dropLast) else a :: swapRemove p n l

theorem getLast_dropLast_perm (l : List α) : (l.getLast?.toList ++ l.dropLast).Perm l := by
  cases h : l.getLast? with
  | none =>
    rw [List.getLast?_eq_none_iff.mp h]
    exact List.Perm.refl _
  | some a =>
    have hl : l.dropLast ++ [a] = l := List.dropLast_append_getLast? a h
    conv_rhs => rw [← hl]
    exact List.perm_append_comm

theorem swapRemove_perm (p : α → Bool) {n : Nat} {l : List α} (h : l.length ≤ n) :
    (swapRemove p n l).Perm (l.filter fun a => !p a) := by
  induction n generalizing l with
  | zero =>
    rw [List.length_eq_zero_iff.mp (Nat.le_zero.mp h)]
    exact List.Perm.refl _
  | succ n ih =>
    cases l with
    | nil => exact List.Perm.refl _
    | cons a l =>
      rw [List.length_cons] at h
      rw [swapRemove]
      by_cases ha : p a = true
      · have hperm := getLast_dropLast_perm l
        rw [if_pos ha, List.filter_cons_of_neg (by simp [ha])]
        have hlen : (l.getLast?.toList ++ l.dropLast).length ≤ n := by
          rw [hperm.length_eq]
          omega
        exact (ih hlen).trans (hperm.filter _)
      · rw [if_neg ha, List.filter_cons_of_pos (by simp [ha])]
        exact (ih (by omega)).cons a

theorem mem_swapRemove {p : α → Bool} {l : List α} {a : α} : a ∈ swapRemove p l.length l ↔ a ∈ l ∧ p a = false := by
  rw [(swapRemove_perm p le_rfl).mem_iff, List.mem_filter, Bool.not_eq_true']

end Removal

/-! ### Ranges -/

section Ranges

variable {κ : Type} [LinearOrder κ] {rs : List (κ × κ)} {lo hi x : κ}

/-- One of the ranges holds `x`. -/
def InRanges (rs : List (κ × κ)) (x : κ) : Prop := ∃ r ∈ rs, r.1 ≤ x ∧ x < r.2

/-- Adds the range `[lo, hi)` to at most `room` ranges: one that meets the last range extends it, and one that does not fit
widens it. -/
def addRange (room : Nat) (rs : List (κ × κ)) (lo hi : κ) : List (κ × κ) :=
  match rs.getLast? with
  | none => rs ++ [(lo, hi)]
  | some r =>
    if rs.length = room ∨ lo ≤ r.2 then rs.dropLast ++ [(r.1, if hi > r.2 then hi else r.2)] else rs ++ [(lo, hi)]

/-- Where the ranges start at or below `lo`, the new ones hold the old ones and `[lo, hi)`. -/
theorem addRange_spec (room : Nat) (h : ∀ r ∈ rs, r.1 ≤ lo) (hi : κ) :
    (∀ r ∈ addRange room rs lo hi, r.1 ≤ lo) ∧
      ∀ x, InRanges rs x ∨ lo ≤ x ∧ x < hi → InRanges (addRange room rs lo hi) x := by
  have happend : (∀ r ∈ rs ++ [(lo, hi)], r.1 ≤ lo) ∧
      ∀ x, InRanges rs x ∨ lo ≤ x ∧ x < hi → InRanges (rs ++ [(lo, hi)]) x := by
    constructor
    · intro r hr
      rcases List.mem_append.mp hr with hr | hr
      · exact h r hr
      · rw [List.mem_singleton.mp hr]
    · rintro x (⟨r, hr, hx⟩ | hx)
      · exact ⟨r, List.mem_append_left _ hr, hx⟩
      · exact ⟨(lo, hi), by simp, hx⟩
  unfold addRange
  cases hlast : rs.getLast? with
  | none => exact happend
  | some last =>
    dsimp only
    by_cases hwiden : rs.length = room ∨ lo ≤ last.2
    · rw [if_pos hwiden]
      have hsplit : rs.dropLast ++ [last] = rs := List.dropLast_append_getLast? last hlast
      have hlo : last.1 ≤ lo := h last (hsplit ▸ by simp)
      have hge : last.2 ≤ if hi > last.2 then hi else last.2 := by
        split
        · exact le_of_lt ‹_›
        · exact le_rfl
      have hhi : hi ≤ if hi > last.2 then hi else last.2 := by
        split
        · exact le_rfl
        · exact not_lt.mp ‹_›
      constructor
      · intro r hr
        rcases List.mem_append.mp hr with hr | hr
        · exact h r (List.dropLast_subset rs hr)
        · rw [List.mem_singleton.mp hr]
          exact hlo
      · rintro x (⟨r, hr, hx⟩ | hx)
        · rw [← hsplit] at hr
          rcases List.mem_append.mp hr with hr | hr
          · exact ⟨r, List.mem_append_left _ hr, hx⟩
          · rw [List.mem_singleton.mp hr] at hx
            exact ⟨_, List.mem_append_right _ (List.mem_singleton_self _), hx.1, lt_of_lt_of_le hx.2 hge⟩
        · exact ⟨_, List.mem_append_right _ (List.mem_singleton_self _), le_trans hlo hx.1, lt_of_lt_of_le hx.2 hhi⟩
    · rw [if_neg hwiden]
      exact happend

end Ranges

namespace Span

/-! ### The greatest stamp -/

section Top

variable {κ : Type} {l : List (Span κ)} {s : Span κ}

/-- The greatest stamp of a list, `0` for the empty one. -/
def top (l : List (Span κ)) : Nat := l.foldl (fun m s => max m s.seq) 0

theorem top_concat (l : List (Span κ)) (s : Span κ) : top (l ++ [s]) = max (top l) s.seq := by
  unfold top
  rw [List.foldl_append]
  rfl

theorem le_top (h : s ∈ l) : s.seq ≤ top l := by
  induction l using List.reverseRecOn with
  | nil => cases h
  | append_singleton l a ih =>
    rw [top_concat]
    rcases List.mem_append.mp h with h | h
    · exact le_trans (ih h) (le_max_left _ _)
    · rw [List.mem_singleton.mp h]
      exact le_max_right _ _

theorem top_le {b : Nat} (h : ∀ s ∈ l, s.seq ≤ b) : top l ≤ b := by
  induction l using List.reverseRecOn with
  | nil => exact Nat.zero_le b
  | append_singleton l a ih =>
    rw [top_concat]
    apply max_le
    · exact ih fun s hs => h s (List.mem_append_left _ hs)
    · exact h a (by simp)

end Top

variable {κ : Type} [LinearOrder κ] {seen active active' l l' : List (Span κ)} {lost lost' : κ → Prop} {k k' x : κ} {s : Span κ}
  {floor : Nat}

/-- The greatest stamp below `floor` of the spans that cover `k`, `0` when there is none. -/
def coverBelow (floor : Nat) (k : κ) (l : List (Span κ)) : Nat :=
  top (l.filter fun s => decide (s.Covers k ∧ s.seq < floor))

theorem le_coverBelow (hs : s ∈ l) (hk : s.Covers k) (hf : s.seq < floor) : s.seq ≤ coverBelow floor k l :=
  le_top (List.mem_filter.mpr ⟨hs, decide_eq_true ⟨hk, hf⟩⟩)

theorem coverBelow_le {b : Nat} (h : ∀ s ∈ l, s.Covers k → s.seq < floor → s.seq ≤ b) : coverBelow floor k l ≤ b := by
  apply top_le
  intro s hs
  obtain ⟨hs, hp⟩ := List.mem_filter.mp hs
  obtain ⟨hk, hf⟩ := of_decide_eq_true hp
  exact h s hs hk hf

/-- It is the cover of a read just below `floor`. -/
theorem coverBelow_succ (t : Nat) (k : κ) (l : List (Span κ)) : coverBelow (t + 1) k l = (cover t k l).getD 0 := by
  cases hc : cover t k l with
  | none =>
    rw [cover_eq_none] at hc
    apply Nat.le_zero.mp
    apply coverBelow_le
    intro s hs hk hf
    have := hc s hs hk
    omega
  | some m =>
    obtain ⟨⟨a, ha, hk, rfl, ht⟩, hmax⟩ := cover_eq_some.mp hc
    apply le_antisymm
    · exact coverBelow_le fun s hs hk hf => hmax s hs hk (by omega)
    · exact le_coverBelow ha hk (by omega)

theorem coverBelow_congr (floor : Nat) (h : ∀ t, cover t k l = cover t k l') :
    coverBelow floor k l = coverBelow floor k l' := by
  cases floor with
  | zero =>
    have hzero : ∀ l : List (Span κ), coverBelow 0 k l = 0 :=
      fun l => Nat.le_zero.mp (coverBelow_le fun s _ _ hf => absurd hf (Nat.not_lt_zero _))
    rw [hzero, hzero]
  | succ t => rw [coverBelow_succ, coverBelow_succ, h]

/-! ### The pass -/

/-- At the key `k`, the spans `active` stand for all of `seen`, except in `lost`. -/
structure Tracks (seen active : List (Span κ)) (lost : κ → Prop) (k : κ) : Prop where
  mem : ∀ a ∈ active, a ∈ seen
  started : ∀ a ∈ active, a.start ≤ k
  stands : ∀ s ∈ seen, ∀ x, k ≤ x → x < s.stop → lost x ∨ ∃ a ∈ active, s.seq ≤ a.seq ∧ x < a.stop

namespace Tracks

theorem nil (lost : κ → Prop) (k : κ) : Tracks ([] : List (Span κ)) [] lost k where
  mem _ h := absurd h (by simp)
  started _ h := absurd h (by simp)
  stands _ h := absurd h (by simp)

/-- The pass moves on to `k'`; what ends at or below it is no longer open. -/
theorem expire (h : Tracks seen active lost k) (hk : k ≤ k') (hmem : ∀ a, a ∈ active' ↔ a ∈ active ∧ k' < a.stop) :
    Tracks seen active' lost k' where
  mem a ha := h.mem a ((hmem a).mp ha).1
  started a ha := le_trans (h.started a ((hmem a).mp ha).1) hk
  stands s hs x hx hlt := by
    rcases h.stands s hs x (le_trans hk hx) hlt with hl | ⟨a, ha, hseq, hstop⟩
    · exact Or.inl hl
    · exact Or.inr ⟨a, (hmem a).mpr ⟨ha, lt_of_le_of_lt hx hstop⟩, hseq, hstop⟩

/-- The next span ends at or below the key. -/
theorem ended (h : Tracks seen active lost k) (hs : s.stop ≤ k) : Tracks (seen ++ [s]) active lost k where
  mem a ha := List.mem_append_left _ (h.mem a ha)
  started := h.started
  stands a ha x hx hlt := by
    rcases List.mem_append.mp ha with ha | ha
    · exact h.stands a ha x hx hlt
    · rw [List.mem_singleton.mp ha] at hlt
      exact absurd (lt_of_le_of_lt hx hlt) (not_lt.mpr hs)

/-- An open span that is newer and reaches at least as far hides the next one. -/
theorem dominated (h : Tracks seen active lost k) {a : Span κ} (ha : a ∈ active) (hseq : s.seq ≤ a.seq)
    (hstop : s.stop ≤ a.stop) : Tracks (seen ++ [s]) active lost k where
  mem b hb := List.mem_append_left _ (h.mem b hb)
  started := h.started
  stands b hb x hx hlt := by
    rcases List.mem_append.mp hb with hb | hb
    · exact h.stands b hb x hx hlt
    · rw [List.mem_singleton.mp hb] at hlt ⊢
      exact Or.inr ⟨a, ha, hseq, lt_of_lt_of_le hlt hstop⟩

/-- The next span opens, and those that it hides go. -/
theorem opened (h : Tracks seen active lost k) (hs : s.start ≤ k)
    (hmem : ∀ a, a ∈ active' ↔ a = s ∨ a ∈ active ∧ ¬(a.seq ≤ s.seq ∧ a.stop ≤ s.stop)) :
    Tracks (seen ++ [s]) active' lost k where
  mem a ha := by
    rcases (hmem a).mp ha with rfl | ⟨ha, -⟩
    · simp
    · exact List.mem_append_left _ (h.mem a ha)
  started a ha := by
    rcases (hmem a).mp ha with rfl | ⟨ha, -⟩
    · exact hs
    · exact h.started a ha
  stands b hb x hx hlt := by
    have hself : s ∈ active' := (hmem s).mpr (Or.inl rfl)
    rcases List.mem_append.mp hb with hb | hb
    · rcases h.stands b hb x hx hlt with hl | ⟨a, ha, hseq, hstop⟩
      · exact Or.inl hl
      · by_cases hhide : a.seq ≤ s.seq ∧ a.stop ≤ s.stop
        · exact Or.inr ⟨s, hself, le_trans hseq hhide.1, lt_of_lt_of_le hstop hhide.2⟩
        · exact Or.inr ⟨a, (hmem a).mpr (Or.inr ⟨ha, hhide⟩), hseq, hstop⟩
    · rw [List.mem_singleton.mp hb] at hlt ⊢
      exact Or.inr ⟨s, hself, le_rfl, hlt⟩

/-- Spans are let go of, and missed only where it is noted. -/
theorem forget (h : Tracks seen active lost k) (hsub : ∀ a ∈ active', a ∈ active)
    (hlost : ∀ a ∈ active, a ∈ active' ∨ ∀ x, k ≤ x → x < a.stop → lost' x) (hle : ∀ x, lost x → lost' x) :
    Tracks seen active' lost' k where
  mem a ha := h.mem a (hsub a ha)
  started a ha := h.started a (hsub a ha)
  stands s hs x hx hlt := by
    rcases h.stands s hs x hx hlt with hl | ⟨a, ha, hseq, hstop⟩
    · exact Or.inl (hle x hl)
    · rcases hlost a ha with ha' | hl
      · exact Or.inr ⟨a, ha', hseq, hstop⟩
      · exact Or.inl (hl x hx hstop)

variable (h : Tracks seen active lost k) (hopen : ∀ a ∈ active, k < a.stop) (hfloor : ∀ s ∈ seen, s.seq < floor)

include h hopen hfloor in
/-- What is open never says too much. -/
theorem top_le : top active ≤ coverBelow floor k seen := by
  apply Span.top_le
  intro a ha
  exact le_coverBelow (h.mem a ha) ⟨h.started a ha, hopen a ha⟩ (hfloor a (h.mem a ha))

include h hopen hfloor in
/-- Where nothing is missed it says all. -/
theorem top_eq (hk : ¬lost k) : top active = coverBelow floor k seen := by
  apply le_antisymm (h.top_le hopen hfloor)
  apply coverBelow_le
  intro s hs hcov _
  rcases h.stands s hs k le_rfl hcov.2 with hl | ⟨a, ha, hseq, -⟩
  · exact absurd hl hk
  · exact le_trans hseq (le_top ha)

end Tracks

end Span

end Horton
