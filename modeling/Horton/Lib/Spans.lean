import Horton.Lib.Newest
import Mathlib.Order.MinMax

/-!
# Stamped spans

Half-open ranges of keys that carry a stamp, over any linear order.  A read asks for `cover t k`, the greatest stamp up to
`t` of the spans around `k`.

`Merging` is the invariant of a merge by start that joins spans of one stamp and leaves out a span that a newer one over the
same range hides: what it has emitted, holds back and has left to read answers every read like its inputs.  There is one
lemma for each thing a step can do with the span it takes.
-/

namespace Horton

/-- `[start, stop)` with a stamp. -/
structure Span (κ : Type) where
  start : κ
  stop : κ
  seq : Nat
  deriving DecidableEq, Repr

namespace Span

variable {κ : Type} [LinearOrder κ] {s p q : Span κ} {l l' : List (Span κ)} {t : Nat} {k : κ}

def Covers (s : Span κ) (k : κ) : Prop := s.start ≤ k ∧ k < s.stop

instance (s : Span κ) (k : κ) : Decidable (s.Covers k) := inferInstanceAs (Decidable (_ ∧ _))

/-- The greatest stamp up to `t` of the spans that cover `k`. -/
def cover (t : Nat) (k : κ) (l : List (Span κ)) : Option Nat :=
  newestStamp seq (fun s => decide (s.Covers k ∧ s.seq ≤ t)) l

/-- Whatever a span of `l` hides at `k`, some span of `l'` hides. -/
def Within (t : Nat) (k : κ) (l l' : List (Span κ)) : Prop :=
  ∀ s ∈ l, s.Covers k → s.seq ≤ t → ∃ s' ∈ l', s'.Covers k ∧ s.seq ≤ s'.seq ∧ s'.seq ≤ t

theorem within_of_subset (h : ∀ s ∈ l, s.Covers k → s ∈ l') : Within t k l l' :=
  fun s hs hk ht => ⟨s, h s hs hk, hk, le_rfl, ht⟩

theorem cover_eq_some {m : Nat} : cover t k l = some m ↔
    (∃ s ∈ l, s.Covers k ∧ s.seq = m ∧ m ≤ t) ∧ ∀ s ∈ l, s.Covers k → s.seq ≤ t → s.seq ≤ m := by
  unfold cover
  rw [newestStamp_eq_some]
  constructor
  · rintro ⟨a, ⟨ha, hp, hmax⟩, rfl⟩
    obtain ⟨hk, ht⟩ := of_decide_eq_true hp
    exact ⟨⟨a, ha, hk, rfl, ht⟩, fun s hs hsk hst => hmax s hs (decide_eq_true ⟨hsk, hst⟩)⟩
  · rintro ⟨⟨a, ha, hk, rfl, ht⟩, hmax⟩
    refine ⟨a, ⟨ha, decide_eq_true ⟨hk, ht⟩, ?_⟩, rfl⟩
    intro b hb hp
    obtain ⟨hbk, hbt⟩ := of_decide_eq_true hp
    exact hmax b hb hbk hbt

theorem cover_eq_none : cover t k l = none ↔ ∀ s ∈ l, s.Covers k → t < s.seq := by
  unfold cover
  rw [newestStamp_eq_none]
  simp only [decide_eq_false_iff_not, not_and, not_le]

/-- Lists that hide the same answer alike. -/
theorem cover_eq (h : Within t k l l') (h' : Within t k l' l) : cover t k l = cover t k l' := by
  cases hc : cover t k l' with
  | none =>
    rw [cover_eq_none] at hc ⊢
    intro s hs hk
    by_contra hlt
    obtain ⟨s', hs', hk', -, ht'⟩ := h s hs hk (by omega)
    have := hc s' hs' hk'
    omega
  | some m =>
    obtain ⟨⟨a, ha, hk, rfl, ht⟩, hmax⟩ := cover_eq_some.mp hc
    rw [cover_eq_some]
    obtain ⟨b, hb, hbk, hle, hbt⟩ := h' a ha hk ht
    -- Nothing in `l` is above the greatest stamp of `l'`.
    have hbound : ∀ s ∈ l, s.Covers k → s.seq ≤ t → s.seq ≤ a.seq := by
      intro s hs hsk hst
      obtain ⟨s', hs', hsk', hle', hst'⟩ := h s hs hsk hst
      exact le_trans hle' (hmax s' hs' hsk' hst')
    exact ⟨⟨b, hb, hbk, le_antisymm (hbound b hb hbk hbt) hle, ht⟩, hbound⟩

/-- Only the spans around `k` matter. -/
theorem cover_congr (h : ∀ s : Span κ, s.Covers k → (s ∈ l ↔ s ∈ l')) : cover t k l = cover t k l' := by
  apply cover_eq
  · exact within_of_subset fun s hs hk => (h s hk).mp hs
  · exact within_of_subset fun s hs hk => (h s hk).mpr hs

/-- Only the stamps around `k` matter. -/
theorem cover_eq_of_seqs (h : ∀ m, (∃ s ∈ l, s.Covers k ∧ s.seq = m) ↔ ∃ s ∈ l', s.Covers k ∧ s.seq = m) :
    cover t k l = cover t k l' := by
  apply cover_eq
  · intro s hs hk ht
    obtain ⟨s', hs', hk', heq⟩ := (h s.seq).mp ⟨s, hs, hk, rfl⟩
    exact ⟨s', hs', hk', by omega, by omega⟩
  · intro s hs hk ht
    obtain ⟨s', hs', hk', heq⟩ := (h s.seq).mpr ⟨s, hs, hk, rfl⟩
    exact ⟨s', hs', hk', by omega, by omega⟩

/-- Behind the greatest stamp the threshold does not matter. -/
theorem cover_eq_of_le {t' : Nat} (h : ∀ s ∈ l, s.seq ≤ t) (ht : t ≤ t') : cover t k l = cover t' k l := by
  unfold cover
  apply newestStamp_congr
  intro s hs
  have hle := h s hs
  simp only [hle, hle.trans ht, and_true]

/-! ### Clipping -/

/-- The part of a span inside `[lo, hi)`, either side open when `none`. -/
def clip (lo hi : Option κ) (s : Span κ) : Option (Span κ) :=
  let start := match lo with
    | some lo => if lo > s.start then lo else s.start
    | none => s.start
  let stop := match hi with
    | some hi => if hi < s.stop then hi else s.stop
    | none => s.stop
  if start < stop then some ⟨start, stop, s.seq⟩ else none

/-- The range `[lo, hi)` holds `k`. -/
def Owns (lo hi : Option κ) (k : κ) : Prop := (∀ x ∈ lo, x ≤ k) ∧ ∀ x ∈ hi, k < x

theorem seq_of_clip {lo hi : Option κ} (h : clip lo hi s = some p) : p.seq = s.seq := by
  unfold clip at h
  dsimp only at h
  split_ifs at h
  rw [← Option.some.inj h]

/-- What is left covers the keys of the range that the span covers. -/
theorem covers_clip {lo hi : Option κ} : (∃ p, clip lo hi s = some p ∧ p.Covers k) ↔ s.Covers k ∧ Owns lo hi k := by
  have hstart : (match lo with
      | some lo => if lo > s.start then lo else s.start
      | none => s.start) ≤ k ↔ s.start ≤ k ∧ ∀ x ∈ lo, x ≤ k := by
    cases lo with
    | none => simp
    | some lo =>
      dsimp only
      split
      · rename_i hlt
        simpa using fun hk => le_of_lt (lt_of_lt_of_le hlt hk)
      · rename_i hle
        simpa using fun hk => le_trans (not_lt.mp hle) hk
  have hstop : (k < match hi with
      | some hi => if hi < s.stop then hi else s.stop
      | none => s.stop) ↔ k < s.stop ∧ ∀ x ∈ hi, k < x := by
    cases hi with
    | none => simp
    | some hi =>
      dsimp only
      split
      · rename_i hlt
        simpa using fun hk => lt_trans hk hlt
      · rename_i hle
        simpa using fun hk => lt_of_lt_of_le hk (not_lt.mp hle)
  unfold clip Owns Covers
  dsimp only
  constructor
  · rintro ⟨p, hp, hk⟩
    split_ifs at hp
    obtain rfl := Option.some.inj hp
    exact ⟨⟨(hstart.mp hk.1).1, (hstop.mp hk.2).1⟩, (hstart.mp hk.1).2, (hstop.mp hk.2).2⟩
  · rintro ⟨⟨h1, h2⟩, hlo, hhi⟩
    have h1' := hstart.mpr ⟨h1, hlo⟩
    have h2' := hstop.mpr ⟨h2, hhi⟩
    rw [if_pos (lt_of_le_of_lt h1' h2')]
    exact ⟨_, rfl, h1', h2'⟩

/-- Inside the range the clipped spans answer like the whole ones. -/
theorem cover_clip {lo hi : Option κ} (hk : Owns lo hi k) : cover t k (l.filterMap (clip lo hi)) = cover t k l := by
  apply cover_eq
  · intro p hp hpk hpt
    obtain ⟨s, hs, hc⟩ := List.mem_filterMap.mp hp
    have hseq := seq_of_clip hc
    exact ⟨s, hs, (covers_clip.mp ⟨p, hc, hpk⟩).1, by omega, by omega⟩
  · intro s hs hsk hst
    obtain ⟨p, hc, hpk⟩ := covers_clip.mpr ⟨hsk, hk⟩
    have hseq := seq_of_clip hc
    exact ⟨p, List.mem_filterMap.mpr ⟨s, hs, hc⟩, hpk, by omega, by omega⟩

/-- Outside of it they cover nothing. -/
theorem cover_clip_of_not {lo hi : Option κ} (hk : ¬Owns lo hi k) : ∀ p ∈ l.filterMap (clip lo hi), ¬p.Covers k := by
  intro p hp hpk
  obtain ⟨s, -, hc⟩ := List.mem_filterMap.mp hp
  exact hk (covers_clip.mp ⟨p, hc, hpk⟩).2

/-- In start order. -/
def Sorted (l : List (Span κ)) : Prop := l.Pairwise (·.start ≤ ·.start)

theorem start_clip {lo hi : Option κ} (h : clip lo hi s = some p) :
    p.start = match lo with
      | some lo => max lo s.start
      | none => s.start := by
  unfold clip at h
  cases lo with
  | none =>
    dsimp only at h ⊢
    split_ifs at h
    rw [← Option.some.inj h]
  | some lo =>
    dsimp only at h ⊢
    by_cases hlt : lo > s.start
    · rw [if_pos hlt] at h
      split_ifs at h
      rw [← Option.some.inj h, max_eq_left (le_of_lt hlt)]
    · rw [if_neg hlt] at h
      split_ifs at h
      rw [← Option.some.inj h, max_eq_right (not_lt.mp hlt)]

/-- Clipping keeps the order. -/
theorem Sorted.clip (h : Sorted l) (lo hi : Option κ) : Sorted (l.filterMap (Span.clip lo hi)) := by
  unfold Sorted at *
  rw [List.pairwise_filterMap]
  refine h.imp ?_
  intro a b hab a' ha b' hb
  rw [start_clip ha, start_clip hb]
  cases lo with
  | none => exact hab
  | some lo => exact max_le_max le_rfl hab

/-! ### Merging -/

/-- Spans of one stamp that overlap or touch, as one. -/
def join (p s : Span κ) : Span κ := if s.stop > p.stop then { p with stop := s.stop } else p

@[simp] theorem join_start (p s : Span κ) : (p.join s).start = p.start := by
  unfold join
  split <;> rfl

@[simp] theorem join_seq (p s : Span κ) : (p.join s).seq = p.seq := by
  unfold join
  split <;> rfl

theorem covers_join (hstart : p.start ≤ s.start) (htouch : s.start ≤ p.stop) :
    (p.join s).Covers k ↔ p.Covers k ∨ s.Covers k := by
  unfold join Covers
  split
  · rename_i hlt
    constructor
    · rintro ⟨h1, h2⟩
      rcases lt_or_ge k p.stop with hk | hk
      · exact Or.inl ⟨h1, hk⟩
      · exact Or.inr ⟨le_trans htouch hk, h2⟩
    · rintro (⟨h1, h2⟩ | ⟨h1, h2⟩)
      · exact ⟨h1, lt_trans h2 hlt⟩
      · exact ⟨le_trans hstart h1, h2⟩
  · rename_i hle
    constructor
    · exact Or.inl
    · rintro (h | ⟨h1, h2⟩)
      · exact h
      · exact ⟨le_trans hstart h1, lt_of_lt_of_le h2 (not_lt.mp hle)⟩

/-- A merge of `all` for the thresholds `V`: it has emitted `out`, holds `pending` back, and its streams have `rest` left. -/
structure Merging (V : Nat → Prop) (all : List (Span κ)) (rest : List (List (Span κ))) (pending : Option (Span κ))
    (out : List (Span κ)) : Prop where
  alike : ∀ t, V t → ∀ k, cover t k (out ++ pending.toList ++ rest.flatten) = cover t k all
  stamps : ∀ p ∈ out ++ pending.toList ++ rest.flatten, ∃ a ∈ all, a.seq = p.seq
  sorted : Sorted (out ++ pending.toList)
  below : ∀ p ∈ out ++ pending.toList, ∀ s ∈ rest.flatten, p.start ≤ s.start
  streams : ∀ l ∈ rest, Sorted l

namespace Merging

variable {V : Nat → Prop} {all out : List (Span κ)} {rest a b : List (List (Span κ))} {pending : Option (Span κ)}

theorem init (h : ∀ l ∈ rest, Sorted l) : Merging V rest.flatten rest none [] where
  alike _ _ _ := rfl
  stamps p hp := ⟨p, hp, rfl⟩
  sorted := List.Pairwise.nil
  below p hp := absurd hp (by simp)
  streams := h

omit [LinearOrder κ] in
private theorem mem_taken {x : Span κ} (s : Span κ) : x ∈ (a ++ (s :: l) :: b).flatten ↔ x = s ∨ x ∈ (a ++ l :: b).flatten := by
  simp only [List.flatten_append, List.flatten_cons, List.mem_append, List.mem_cons]
  tauto

/-- The streams after the head of one is taken. -/
private theorem streams_taken (h : ∀ x ∈ a ++ (s :: l) :: b, Sorted x) : ∀ x ∈ a ++ l :: b, Sorted x := by
  intro x hx
  rcases List.mem_append.mp hx with hx | hx
  · exact h x (by simp [hx])
  rcases List.mem_cons.mp hx with rfl | hx
  · exact (List.pairwise_cons.mp (h (s :: x) (by simp))).2
  · exact h x (by simp [hx])

variable (h : Merging V all (a ++ (s :: l) :: b) pending out)
  (hmin : ∀ x ∈ (a ++ (s :: l) :: b).flatten, s.start ≤ x.start)

include h hmin in
/-- The span taken is joined to the one held back. -/
theorem joined (hp : pending = some p) (hseq : s.seq = p.seq) (htouch : s.start ≤ p.stop) :
    Merging V all (a ++ l :: b) (some (p.join s)) out := by
  subst hp
  have hps : p.start ≤ s.start := h.below p (by simp) s ((mem_taken s).mpr (Or.inl rfl))
  have hold : ∀ x, x ∈ out ++ (some p).toList ++ (a ++ (s :: l) :: b).flatten ↔
      x ∈ out ∨ x = p ∨ x = s ∨ x ∈ (a ++ l :: b).flatten := by
    intro x
    rw [List.mem_append, List.mem_append, mem_taken, Option.toList_some, List.mem_singleton, or_assoc]
  have hnew : ∀ x, x ∈ out ++ (some (p.join s)).toList ++ (a ++ l :: b).flatten ↔
      x ∈ out ∨ x = p.join s ∨ x ∈ (a ++ l :: b).flatten := by
    intro x
    rw [List.mem_append, List.mem_append, Option.toList_some, List.mem_singleton, or_assoc]
  constructor
  · intro t ht k
    rw [← h.alike t ht k]
    apply cover_eq
    · intro x hx hk hxt
      rcases (hnew x).mp hx with hx | rfl | hx
      · exact ⟨x, (hold x).mpr (Or.inl hx), hk, le_rfl, hxt⟩
      · rw [join_seq] at hxt ⊢
        rcases (covers_join hps htouch).mp hk with hk | hk
        · exact ⟨p, (hold p).mpr (Or.inr (Or.inl rfl)), hk, le_rfl, hxt⟩
        · exact ⟨s, (hold s).mpr (Or.inr (Or.inr (Or.inl rfl))), hk, by omega, by omega⟩
      · exact ⟨x, (hold x).mpr (Or.inr (Or.inr (Or.inr hx))), hk, le_rfl, hxt⟩
    · intro x hx hk hxt
      have hjoin : p.Covers k ∨ s.Covers k → x.seq = p.seq →
          ∃ x' ∈ out ++ (some (p.join s)).toList ++ (a ++ l :: b).flatten, x'.Covers k ∧ x.seq ≤ x'.seq ∧ x'.seq ≤ t := by
        intro hk hx
        refine ⟨p.join s, (hnew _).mpr (Or.inr (Or.inl rfl)), (covers_join hps htouch).mpr hk, ?_, ?_⟩ <;> rw [join_seq] <;> omega
      rcases (hold x).mp hx with hx | rfl | rfl | hx
      · exact ⟨x, (hnew x).mpr (Or.inl hx), hk, le_rfl, hxt⟩
      · exact hjoin (Or.inl hk) rfl
      · exact hjoin (Or.inr hk) hseq
      · exact ⟨x, (hnew x).mpr (Or.inr (Or.inr hx)), hk, le_rfl, hxt⟩
  · intro x hx
    rcases (hnew x).mp hx with hx | rfl | hx
    · exact h.stamps x ((hold x).mpr (Or.inl hx))
    · rw [join_seq]
      exact h.stamps p ((hold p).mpr (Or.inr (Or.inl rfl)))
    · exact h.stamps x ((hold x).mpr (Or.inr (Or.inr (Or.inr hx))))
  · have hs := h.sorted
    unfold Sorted at hs ⊢
    rw [Option.toList_some, List.pairwise_append] at hs ⊢
    refine ⟨hs.1, by simp, ?_⟩
    intro x hx y hy
    obtain rfl := List.mem_singleton.mp hy
    rw [join_start]
    exact hs.2.2 x hx p (by simp)
  · intro x hx y hy
    have hy' := (mem_taken s).mpr (Or.inr hy)
    rcases List.mem_append.mp hx with hx | hx
    · exact h.below x (by simp [hx]) y hy'
    · obtain rfl := List.mem_singleton.mp hx
      rw [join_start]
      exact h.below p (by simp) y hy'
  · exact streams_taken h.streams

include h hmin in
/-- The span taken is held back, and the one that was is emitted. -/
theorem started : Merging V all (a ++ l :: b) (some s) (out ++ pending.toList) := by
  have hsame : ∀ x, x ∈ out ++ pending.toList ++ (some s).toList ++ (a ++ l :: b).flatten ↔
      x ∈ out ++ pending.toList ++ (a ++ (s :: l) :: b).flatten := by
    intro x
    rw [List.mem_append, List.mem_append, List.mem_append (s := out ++ pending.toList), mem_taken, Option.toList_some,
      List.mem_singleton, or_assoc]
  constructor
  · intro t ht k
    rw [← h.alike t ht k]
    exact cover_congr fun x _ => hsame x
  · exact fun x hx => h.stamps x ((hsame x).mp hx)
  · have hs := h.sorted
    unfold Sorted at hs ⊢
    rw [List.pairwise_append]
    refine ⟨hs, by simp, ?_⟩
    intro x hx y hy
    obtain rfl := List.mem_singleton.mp hy
    exact h.below x hx y ((mem_taken y).mpr (Or.inl rfl))
  · intro x hx y hy
    have hy' := (mem_taken s).mpr (Or.inr hy)
    rcases List.mem_append.mp hx with hx | hx
    · exact h.below x hx y hy'
    · obtain rfl := List.mem_singleton.mp hx
      exact hmin y hy'
  · exact streams_taken h.streams

include h in
/-- The span taken is left out, hidden by an emitted one over the same range that every threshold sees. -/
theorem hidden (hq : q ∈ out ++ pending.toList) (hstart : q.start = s.start) (hstop : q.stop = s.stop)
    (hnewer : s.seq < q.seq) (hvisible : ∀ t, V t → q.seq ≤ t) :
    Merging V all (a ++ l :: b) none (out ++ pending.toList) := by
  have hold : ∀ x, x ∈ out ++ pending.toList ++ (a ++ (s :: l) :: b).flatten ↔
      x ∈ out ++ pending.toList ∨ x = s ∨ x ∈ (a ++ l :: b).flatten := by
    intro x
    rw [List.mem_append, mem_taken]
  have hnew : ∀ x, x ∈ out ++ pending.toList ++ (none : Option (Span κ)).toList ++ (a ++ l :: b).flatten ↔
      x ∈ out ++ pending.toList ∨ x ∈ (a ++ l :: b).flatten := by
    intro x
    rw [Option.toList_none, List.append_nil, List.mem_append]
  have hsub : ∀ x, x ∈ out ++ pending.toList ++ (none : Option (Span κ)).toList ++ (a ++ l :: b).flatten →
      x ∈ out ++ pending.toList ++ (a ++ (s :: l) :: b).flatten := by
    intro x hx
    rcases (hnew x).mp hx with hx | hx
    · exact (hold x).mpr (Or.inl hx)
    · exact (hold x).mpr (Or.inr (Or.inr hx))
  constructor
  · intro t ht k
    rw [← h.alike t ht k]
    apply cover_eq
    · exact within_of_subset fun x hx _ => hsub x hx
    · intro x hx hk hxt
      rcases (hold x).mp hx with hx | rfl | hx
      · exact ⟨x, (hnew x).mpr (Or.inl hx), hk, le_rfl, hxt⟩
      · refine ⟨q, (hnew q).mpr (Or.inl hq), ?_, le_of_lt hnewer, hvisible t ht⟩
        unfold Covers at hk ⊢
        rwa [hstart, hstop]
      · exact ⟨x, (hnew x).mpr (Or.inr hx), hk, le_rfl, hxt⟩
  · exact fun x hx => h.stamps x (hsub x hx)
  · rw [Option.toList_none, List.append_nil]
    exact h.sorted
  · intro x hx y hy
    rw [Option.toList_none, List.append_nil] at hx
    exact h.below x hx y ((mem_taken s).mpr (Or.inr hy))
  · exact streams_taken h.streams

omit h hmin in
/-- The last span held back is emitted. -/
theorem flushed (h : Merging V all rest pending out) : Merging V all rest none (out ++ pending.toList) := by
  have hnil : out ++ pending.toList ++ (none : Option (Span κ)).toList = out ++ pending.toList := by
    rw [Option.toList_none, List.append_nil]
  constructor
  · rw [hnil]
    exact h.alike
  · rw [hnil]
    exact h.stamps
  · rw [hnil]
    exact h.sorted
  · rw [hnil]
    exact h.below
  · exact h.streams

omit h hmin in
/-- At the end the emitted spans answer like the inputs. -/
theorem cover_out (h : Merging V all rest none out) (hrest : rest.flatten = []) (ht : V t) : cover t k out = cover t k all := by
  rw [← h.alike t ht k, hrest, Option.toList_none, List.append_nil, List.append_nil]

end Merging

end Span

end Horton
