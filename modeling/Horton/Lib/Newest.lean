import Mathlib.Data.List.Induction
import Mathlib.Data.List.Pairwise
import Mathlib.Data.Nat.Basic
import Mathlib.Order.Lattice

/-!
# The newest element

Stamped elements in a list, over any type: which of those with a property carries the greatest stamp.  A search that stops
at the first match finds it where newer elements come first, and a fold that keeps the greatest stamp finds it anywhere.
-/

namespace Horton

variable {α : Type} {stamp : α → Nat} {p : α → Prop} {l l' : List α} {a x : α}

/-- `a` carries the greatest stamp of the elements with property `p`. -/
def Newest (stamp : α → Nat) (p : α → Prop) (l : List α) (a : α) : Prop :=
  a ∈ l ∧ p a ∧ ∀ b ∈ l, p b → stamp b ≤ stamp a

namespace Newest

theorem perm (hl : l.Perm l') : Newest stamp p l a ↔ Newest stamp p l' a := by
  simp only [Newest, hl.mem_iff]

theorem not_nil : ¬Newest stamp p [] a := fun h => by simpa using h.1

/-- An element without the property does not count. -/
theorem cons_of_not (hx : ¬p x) : Newest stamp p (x :: l) a ↔ Newest stamp p l a := by
  constructor
  · rintro ⟨hmem, ha, hmax⟩
    rcases List.mem_cons.mp hmem with rfl | hmem
    · exact absurd ha hx
    · exact ⟨hmem, ha, fun b hb => hmax b (List.mem_cons_of_mem _ hb)⟩
  · rintro ⟨hmem, ha, hmax⟩
    refine ⟨List.mem_cons_of_mem _ hmem, ha, ?_⟩
    intro b hb hpb
    rcases List.mem_cons.mp hb with rfl | hb
    · exact absurd hpb hx
    · exact hmax b hb hpb

theorem append_of_not (hl : ∀ x ∈ l, ¬p x) : Newest stamp p (l ++ l') a ↔ Newest stamp p l' a := by
  induction l with
  | nil => rfl
  | cons x l ih =>
    rw [List.cons_append, cons_of_not (hl x (by simp))]
    exact ih fun y hy => hl y (by simp [hy])

/-- In front of older elements the first one with the property is the newest. -/
theorem head (hx : p x) (hl : ∀ b ∈ l, p b → stamp b < stamp x) : Newest stamp p (x :: l) a ↔ a = x := by
  constructor
  · rintro ⟨hmem, ha, hmax⟩
    rcases List.mem_cons.mp hmem with rfl | hmem
    · rfl
    · have hle := hmax x (by simp) hx
      have hlt := hl a hmem ha
      omega
  · rintro rfl
    refine ⟨by simp, hx, ?_⟩
    intro b hb hpb
    rcases List.mem_cons.mp hb with rfl | hb
    · exact le_rfl
    · exact le_of_lt (hl b hb hpb)

end Newest

/-- Keeps the greatest stamp of the elements with the property. -/
def newestStamp (stamp : α → Nat) (p : α → Bool) (l : List α) : Option Nat :=
  l.foldl (fun best a => if p a ∧ (∀ b ∈ best, stamp a > b) then some (stamp a) else best) none

theorem newestStamp_concat (p : α → Bool) (l : List α) (x : α) : newestStamp stamp p (l ++ [x]) =
    if p x ∧ (∀ b ∈ newestStamp stamp p l, stamp x > b) then some (stamp x) else newestStamp stamp p l := by
  unfold newestStamp
  rw [List.foldl_append]
  rfl

theorem newestStamp_congr {p q : α → Bool} (h : ∀ a ∈ l, p a = q a) : newestStamp stamp p l = newestStamp stamp q l := by
  induction l using List.reverseRecOn with
  | nil => rfl
  | append_singleton l x ih =>
    rw [newestStamp_concat, newestStamp_concat, ih fun a ha => h a (by simp [ha]), h x (by simp)]

theorem newestStamp_eq_none {p : α → Bool} : newestStamp stamp p l = none ↔ ∀ a ∈ l, p a = false := by
  induction l using List.reverseRecOn with
  | nil => simp [newestStamp]
  | append_singleton l x ih =>
    rw [newestStamp_concat]
    constructor
    · intro h
      split_ifs at h with hx
      have hl := ih.mp h
      have hpx : p x = false := by
        rw [h] at hx
        simpa using hx
      intro a ha
      rcases List.mem_append.mp ha with ha | ha
      · exact hl a ha
      · rw [List.mem_singleton.mp ha]
        exact hpx
    · intro h
      rw [if_neg (by simp [h x (by simp)])]
      exact ih.mpr fun a ha => h a (by simp [ha])

theorem newestStamp_eq_some {p : α → Bool} {m : Nat} :
    newestStamp stamp p l = some m ↔ ∃ a, Newest stamp (p · = true) l a ∧ stamp a = m := by
  have hunique : ∀ {a b : α}, Newest stamp (p · = true) l a → Newest stamp (p · = true) l b → stamp a = stamp b :=
    fun ha hb => le_antisymm (hb.2.2 _ ha.1 ha.2.1) (ha.2.2 _ hb.1 hb.2.1)
  suffices h : ∀ m, newestStamp stamp p l = some m → ∃ a, Newest stamp (p · = true) l a ∧ stamp a = m by
    refine ⟨h m, ?_⟩
    rintro ⟨a, ha, rfl⟩
    cases hr : newestStamp stamp p l with
    | none =>
      have := newestStamp_eq_none.mp hr a ha.1
      rw [ha.2.1] at this
      cases this
    | some m =>
      obtain ⟨b, hb, rfl⟩ := h m hr
      rw [hunique ha hb]
  clear hunique
  induction l using List.reverseRecOn with
  | nil => simp [newestStamp]
  | append_singleton l x ih =>
    intro m hm
    rw [newestStamp_concat] at hm
    split_ifs at hm with hx
    · obtain rfl := Option.some.inj hm
      refine ⟨x, ⟨by simp, hx.1, ?_⟩, rfl⟩
      intro b hb hpb
      rcases List.mem_append.mp hb with hb | hb
      · cases hr : newestStamp stamp p l with
        | none =>
          rw [newestStamp_eq_none.mp hr b hb] at hpb
          cases hpb
        | some n =>
          obtain ⟨a, ha, rfl⟩ := ih n hr
          exact le_of_lt (lt_of_le_of_lt (ha.2.2 b hb hpb) (hx.2 _ hr))
      · rw [List.mem_singleton.mp hb]
    · obtain ⟨a, ha, rfl⟩ := ih m hm
      refine ⟨a, ⟨by simp [ha.1], ha.2.1, ?_⟩, rfl⟩
      intro b hb hpb
      rcases List.mem_append.mp hb with hb | hb
      · exact ha.2.2 b hb hpb
      · obtain rfl := List.mem_singleton.mp hb
        by_contra hlt
        refine hx ⟨hpb, ?_⟩
        rw [hm]
        intro n hn
        obtain rfl := Option.some.inj hn
        omega

section NewestOf

variable {α : Type} {stamp : α → Nat} {p : α → Prop} [DecidablePred p] {l : List α} {a : α}

/-- The first of the elements with the property that carry the greatest stamp. -/
def newestOf (stamp : α → Nat) (p : α → Prop) [DecidablePred p] (l : List α) : Option α :=
  l.foldl (fun best a => if p a ∧ (∀ b ∈ best, stamp b < stamp a) then some a else best) none

theorem newestOf_concat (l : List α) (x : α) : newestOf stamp p (l ++ [x]) =
    if p x ∧ (∀ b ∈ newestOf stamp p l, stamp b < stamp x) then some x else newestOf stamp p l := by
  unfold newestOf
  rw [List.foldl_append]
  rfl

/-- The fold finds an element that is newest, unless none has the property. -/
theorem newestOf_spec (stamp : α → Nat) (p : α → Prop) [DecidablePred p] (l : List α) :
    newestOf stamp p l = none ∧ (∀ a ∈ l, ¬p a) ∨ ∃ a, newestOf stamp p l = some a ∧ Newest stamp p l a := by
  induction l using List.reverseRecOn with
  | nil => exact Or.inl ⟨rfl, by simp⟩
  | append_singleton l x ih =>
    rw [newestOf_concat]
    by_cases hx : p x ∧ ∀ b ∈ newestOf stamp p l, stamp b < stamp x
    · rw [if_pos hx]
      refine Or.inr ⟨x, rfl, by simp, hx.1, fun b hb hpb => ?_⟩
      rcases List.mem_append.mp hb with hb | hb
      · rcases ih with ⟨-, hnone⟩ | ⟨a, ha, hnewest⟩
        · exact absurd hpb (hnone b hb)
        · exact le_of_lt (lt_of_le_of_lt (hnewest.2.2 b hb hpb) (hx.2 a ha))
      · rw [List.mem_singleton.mp hb]
    · rw [if_neg hx]
      rcases ih with ⟨hnone, hall⟩ | ⟨a, ha, hmem, hpa, hmax⟩
      · refine Or.inl ⟨hnone, fun a ha hpa => ?_⟩
        rcases List.mem_append.mp ha with ha | ha
        · exact hall a ha hpa
        · rw [List.mem_singleton.mp ha] at hpa
          exact hx ⟨hpa, by simp [hnone]⟩
      · refine Or.inr ⟨a, ha, by simp [hmem], hpa, fun b hb hpb => ?_⟩
        rcases List.mem_append.mp hb with hb | hb
        · exact hmax b hb hpb
        · rw [List.mem_singleton.mp hb] at hpb ⊢
          by_contra hlt
          exact hx ⟨hpb, by simpa [ha] using hlt⟩

/-- Where stamps tell the elements apart, the newest is the one that is found. -/
theorem newestOf_eq_some (hd : l.Pairwise fun a b => stamp a ≠ stamp b) : newestOf stamp p l = some a ↔ Newest stamp p l a := by
  constructor
  · intro h
    rcases newestOf_spec stamp p l with ⟨hnone, -⟩ | ⟨b, hb, hnewest⟩
    · rw [h] at hnone
      cases hnone
    · rw [h] at hb
      rw [Option.some.inj hb]
      exact hnewest
  · intro h
    rcases newestOf_spec stamp p l with ⟨-, hall⟩ | ⟨b, hb, hnewest⟩
    · exact absurd h.2.1 (hall a h.1)
    · have heq : stamp a = stamp b := le_antisymm (hnewest.2.2 a h.1 h.2.1) (h.2.2 b hnewest.1 hnewest.2.1)
      rw [hb]
      have hsymm : Std.Symm fun a b : α => stamp a ≠ stamp b := ⟨fun _ _ h => h.symm⟩
      by_contra hne
      exact hd.forall hnewest.1 h.1 (fun hab => hne (congrArg some hab)) heq.symm

theorem newestOf_perm {l' : List α} (hl : l.Perm l') (hd : l.Pairwise fun a b => stamp a ≠ stamp b) :
    newestOf stamp p l = newestOf stamp p l' := by
  have hsymm : ∀ {a b : α}, stamp a ≠ stamp b → stamp b ≠ stamp a := fun h => h.symm
  have hd' : l'.Pairwise fun a b => stamp a ≠ stamp b := (hl.pairwise_iff hsymm).mp hd
  ext a
  rw [newestOf_eq_some hd, newestOf_eq_some hd', Newest.perm hl]

theorem newestOf_map {β : Type} {f : β → α} {stamp' : β → Nat} {p' : β → Prop} [DecidablePred p'] {l : List β}
    (hs : ∀ b, stamp (f b) = stamp' b) (hp : ∀ b, p (f b) ↔ p' b) :
    newestOf stamp p (l.map f) = (newestOf stamp' p' l).map f := by
  induction l using List.reverseRecOn with
  | nil => rfl
  | append_singleton l x ih =>
    rw [List.map_append, List.map_singleton, newestOf_concat, newestOf_concat, ih]
    cases hr : newestOf stamp' p' l with
    | none =>
      simp only [Option.map_none, hp]
      by_cases hx : p' x <;> simp [hx]
    | some b =>
      simp only [Option.map_some, Option.mem_def, Option.some.injEq, forall_eq', hp, hs]
      by_cases hx : p' x ∧ stamp' b < stamp' x
      · rw [if_pos hx, if_pos hx]
        rfl
      · rw [if_neg hx, if_neg hx]
        rfl

end NewestOf

end Horton
