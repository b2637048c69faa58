import Mathlib.Data.List.Nodup
import Mathlib.Data.List.Perm.Basic

/-!
# Winners

A contest between the elements of a list, over any relation: who is beaten by none.  Where the relation orders the elements
strictly and totally there is one such element at most, so a fold that keeps whoever beats the one it holds finds it, in
whatever order the elements come.
-/

namespace Horton

variable {α : Type} {beats : α → α → Prop} {l l' : List α} {a b : α}

/-- `beats` is a strict total order on the elements of `l`. -/
structure Ranked (beats : α → α → Prop) (l : List α) : Prop where
  irrefl : ∀ a ∈ l, ¬beats a a
  total : ∀ a ∈ l, ∀ b ∈ l, a ≠ b → beats a b ∨ beats b a
  trans : ∀ a ∈ l, ∀ b ∈ l, ∀ c ∈ l, beats a b → beats b c → beats a c

/-- `a` is in `l`, and nothing there beats it. -/
def Unbeaten (beats : α → α → Prop) (l : List α) (a : α) : Prop := a ∈ l ∧ ∀ b ∈ l, ¬beats b a

namespace Ranked

theorem subset (h : Ranked beats l) (hs : l' ⊆ l) : Ranked beats l' where
  irrefl a ha := h.irrefl a (hs ha)
  total a ha b hb := h.total a (hs ha) b (hs hb)
  trans a ha b hb c hc := h.trans a (hs ha) b (hs hb) c (hs hc)

theorem asymm (h : Ranked beats l) (ha : a ∈ l) (hb : b ∈ l) (hab : beats a b) : ¬beats b a :=
  fun hba => h.irrefl a ha (h.trans a ha b hb a ha hab hba)

/-- What does not beat an element is no better than what beats it. -/
theorem not_beats_of_le {c : α} (h : Ranked beats l) (ha : a ∈ l) (hb : b ∈ l) (hc : c ∈ l) (hab : ¬beats a b)
    (hbc : ¬beats b c) : ¬beats a c := by
  intro hac
  by_cases heq : a = b
  · rw [← heq] at hbc
    exact hbc hac
  · have hba : beats b a := (h.total a ha b hb heq).resolve_left hab
    exact hbc (h.trans b hb a ha c hc hba hac)

theorem perm (h : Ranked beats l) (hp : l.Perm l') : Ranked beats l' := h.subset hp.symm.subset

/-- A contest by a key that tells the elements apart. -/
theorem of_map {β : Type} {f : β → α} {l : List β} (h : Ranked beats (l.map f)) (hn : (l.map f).Nodup) :
    Ranked (fun a b => beats (f a) (f b)) l where
  irrefl a ha := h.irrefl (f a) (List.mem_map_of_mem ha)
  total a ha b hb hne := by
    refine h.total (f a) (List.mem_map_of_mem ha) (f b) (List.mem_map_of_mem hb) ?_
    intro heq
    exact hne (List.inj_on_of_nodup_map hn ha hb heq)
  trans a ha b hb c hc :=
    h.trans (f a) (List.mem_map_of_mem ha) (f b) (List.mem_map_of_mem hb) (f c) (List.mem_map_of_mem hc)

/-- Keeping whoever beats the one held finds the winner. -/
theorem foldl_unbeaten [DecidableRel beats] {seen : List α} (h : Ranked beats (seen ++ l)) (ha : Unbeaten beats seen a) :
    Unbeaten beats (seen ++ l) (l.foldl (fun w b => if beats b w then b else w) a) := by
  induction l generalizing seen a with
  | nil => simpa using ha
  | cons b l ih =>
    have hsplit : seen ++ b :: l = seen ++ [b] ++ l := by simp
    rw [hsplit] at h ⊢
    have hb : b ∈ seen ++ [b] ++ l := by simp
    have hmem : ∀ c ∈ seen, c ∈ seen ++ [b] ++ l := by
      intro c hc
      simp [hc]
    rw [List.foldl_cons]
    apply ih h
    split
    · rename_i hgt
      refine ⟨by simp, fun c hc hcb => ?_⟩
      rcases List.mem_append.mp hc with hc | hc
      · exact ha.2 c hc (h.trans c (hmem c hc) b hb a (hmem a ha.1) hcb hgt)
      · rw [List.mem_singleton.mp hc] at hcb
        exact h.irrefl b hb hcb
    · rename_i hgt
      refine ⟨List.mem_append_left _ ha.1, fun c hc hca => ?_⟩
      rcases List.mem_append.mp hc with hc | hc
      · exact ha.2 c hc hca
      · rw [List.mem_singleton.mp hc] at hca
        exact hgt hca

theorem unbeaten_unique (h : Ranked beats l) (ha : Unbeaten beats l a) (hb : Unbeaten beats l b) : a = b := by
  by_contra hne
  rcases h.total a ha.1 b hb.1 hne with hab | hba
  · exact hb.2 a ha.1 hab
  · exact ha.2 b hb.1 hba

end Ranked

theorem Unbeaten.perm (h : l.Perm l') : Unbeaten beats l a ↔ Unbeaten beats l' a := by
  simp only [Unbeaten, h.mem_iff]

end Horton
