import Mathlib.Data.List.Basic

/-!
# Binary search

`partitionPoint p l` is the binary search of `slice::partition_point`: on a list of which `p` holds for a first part and
fails for the rest, it returns the length of that part (`partitionPoint_append`).

`lowerBound` is the loop that halves an interval of indices, with a test that may itself fail; it finds where a test that
holds below some index stops holding (`lowerBound_spec`).
-/

namespace Search

variable {α : Type} (p : α → Bool) (l : List α)

/-- Whether `p` holds at index `i`. -/
def holdsAt (i : Nat) : Bool := l[i]?.any p

/-- The loop over `size` elements from `base` on: it halves the part in which `p` stops holding. -/
def bisect : Nat → Nat → Nat → Nat
  | 0, base, _ => base
  | fuel + 1, base, size =>
    if 1 < size then
      let half := size / 2
      bisect fuel (if holdsAt p l (base + half) then base + half else base) (size - half)
    else base

def partitionPoint : Nat :=
  if l.isEmpty then 0
  else
    let base := bisect p l l.length 0 l.length
    if holdsAt p l base then base + 1 else base

variable {p} {a b : List α}

private theorem holdsAt_append (ha : ∀ x ∈ a, p x = true) (hb : ∀ x ∈ b, p x = false) (i : Nat) :
    holdsAt p (a ++ b) i = true ↔ i < a.length := by
  unfold holdsAt
  rcases Nat.lt_or_ge i a.length with hi | hi
  · rw [List.getElem?_append_left hi, List.getElem?_eq_getElem hi]
    simpa [hi] using ha _ (List.getElem_mem hi)
  · rw [List.getElem?_append_right hi]
    cases hget : b[i - a.length]? with
    | none => simp; omega
    | some x =>
      have := hb x (List.mem_of_getElem? hget)
      simp [this]
      omega

/-- The part that is left holds the partition point, with one element of it known. -/
private theorem bisect_spec (ha : ∀ x ∈ a, p x = true) (hb : ∀ x ∈ b, p x = false) (fuel base size : Nat)
    (hf : size ≤ fuel + 1) (h1 : base < a.length ∨ base = 0) (h2 : a.length ≤ base + size) (h3 : 0 < size) :
    (bisect p (a ++ b) fuel base size < a.length ∨ bisect p (a ++ b) fuel base size = 0) ∧
      a.length ≤ bisect p (a ++ b) fuel base size + 1 := by
  induction fuel generalizing base size with
  | zero => exact ⟨h1, by unfold bisect; omega⟩
  | succ fuel ih =>
    unfold bisect
    split
    · refine ih _ _ (by omega) ?_ ?_ (by omega)
      · split
        · rename_i hmid
          exact Or.inl ((holdsAt_append ha hb _).mp hmid)
        · exact h1
      · split
        · omega
        · rename_i hmid
          have := mt (holdsAt_append ha hb (base + size / 2)).mpr hmid
          omega
    · exact ⟨h1, by omega⟩

/-- The search finds where `p` stops holding. -/
theorem partitionPoint_append (ha : ∀ x ∈ a, p x = true) (hb : ∀ x ∈ b, p x = false) :
    partitionPoint p (a ++ b) = a.length := by
  unfold partitionPoint
  split
  · rename_i he
    have := List.isEmpty_iff.mp he
    simp_all
  · rename_i he
    have hlen : 0 < (a ++ b).length := List.length_pos_iff.mpr fun h => he (List.isEmpty_iff.mpr h)
    obtain ⟨h1, h2⟩ := bisect_spec ha hb (a ++ b).length 0 (a ++ b).length (by omega) (Or.inr rfl) (by simp) hlen
    dsimp only
    split
    · rename_i hp
      have := (holdsAt_append ha hb _).mp hp
      omega
    · rename_i hp
      have := mt (holdsAt_append ha hb _).mpr hp
      omega

/-- Behind the first element at which `p` fails it fails for all, when it never holds again after it failed. -/
private theorem dropWhile_fails {l : List α} (h : l.Pairwise fun x y => p y = true → p x = true) :
    ∀ x ∈ l.dropWhile p, p x = false := by
  induction l with
  | nil => simp
  | cons y l ih =>
    rw [List.pairwise_cons] at h
    intro x hx
    cases hy : p y with
    | true =>
      rw [List.dropWhile_cons_of_pos hy] at hx
      exact ih h.2 x hx
    | false =>
      rw [List.dropWhile_cons_of_neg (by simp [hy])] at hx
      rcases List.mem_cons.mp hx with rfl | hx
      · exact hy
      · by_contra hp
        exact absurd (h.1 x hx (by simpa using hp)) (by simp [hy])

/-- The search splits such a list as a scan does. -/
theorem split_partitionPoint {l : List α} (h : l.Pairwise fun x y => p y = true → p x = true) :
    l.take (partitionPoint p l) = l.takeWhile p ∧ l.drop (partitionPoint p l) = l.dropWhile p := by
  have hsplit : l.takeWhile p ++ l.dropWhile p = l := List.takeWhile_append_dropWhile
  have hpoint : partitionPoint p l = (l.takeWhile p).length := by
    have hfound := partitionPoint_append (List.all_eq_true.mp (List.all_takeWhile (p := p) (l := l))) (dropWhile_fails h)
    rwa [hsplit] at hfound
  have htake : (l.takeWhile p ++ l.dropWhile p).take (l.takeWhile p).length = l.takeWhile p := List.take_left
  have hdrop : (l.takeWhile p ++ l.dropWhile p).drop (l.takeWhile p).length = l.dropWhile p := List.drop_left
  rw [hsplit] at htake hdrop
  rw [hpoint]
  exact ⟨htake, hdrop⟩

/-! ### Halving an interval -/

section Interval

variable {ε : Type}

/-- The loop over `[lo, hi)`; an interval is at most as long as its fuel. -/
def lowerBound (below : Nat → Except ε Bool) : Nat → Nat → Nat → Except ε Nat
  | 0, lo, _ => .ok lo
  | fuel + 1, lo, hi =>
    if lo < hi then do
      let mid := lo + (hi - lo) / 2
      if ← below mid then lowerBound below fuel (mid + 1) hi else lowerBound below fuel lo mid
    else .ok lo

/-- A test that holds below every index where it holds stops holding at one index. -/
theorem exists_threshold {q : Nat → Bool} {n : Nat} (h : ∀ i j, i ≤ j → j < n → q j = true → q i = true) :
    ∃ m ≤ n, ∀ i < n, q i = decide (i < m) := by
  induction n with
  | zero => exact ⟨0, Nat.le_refl _, fun i hi => absurd hi (Nat.not_lt_zero i)⟩
  | succ n ih =>
    obtain ⟨m, hm, hq⟩ := ih fun i j hij hj => h i j hij (by omega)
    cases hn : q n with
    | true =>
      refine ⟨n + 1, Nat.le_refl _, fun i hi => ?_⟩
      rw [h i n (by omega) (by omega) hn, decide_eq_true hi]
    | false =>
      refine ⟨m, by omega, fun i hi => ?_⟩
      by_cases hin : i < n
      · exact hq i hin
      · obtain rfl : i = n := by omega
        rw [hn, decide_eq_false (by omega)]

/-- The loop stays around the index `m` where the test stops holding, and ends there. -/
theorem lowerBound_spec {below : Nat → Except ε Bool} {m n : Nat} (h : ∀ i < n, below i = .ok (decide (i < m)))
    (fuel lo hi : Nat) (hf : hi - lo ≤ fuel) (hlo : lo ≤ m) (hhi : m ≤ hi) (hn : hi ≤ n) :
    lowerBound below fuel lo hi = .ok m := by
  induction fuel generalizing lo hi with
  | zero =>
    rw [lowerBound]
    congr 1
    omega
  | succ fuel ih =>
    rw [lowerBound]
    split
    · dsimp only
      rw [h (lo + (hi - lo) / 2) (by omega)]
      show (if decide (lo + (hi - lo) / 2 < m) = true then _ else _) = _
      split
      · rename_i hmid
        have := of_decide_eq_true hmid
        exact ih _ _ (by omega) (by omega) (by omega) (by omega)
      · rename_i hmid
        have : ¬ lo + (hi - lo) / 2 < m := fun hc => hmid (decide_eq_true hc)
        exact ih _ _ (by omega) (by omega) (by omega) (by omega)
    · congr 1
      omega

end Interval

end Search
