import Horton.Lib.Winner
import Horton.Basic
import Mathlib.Data.List.Pairwise

/-!
# Versions

The merge rule of `version.rs`.  Versions of one node compare by sequence number, versions of different nodes by the wall
clock of their seal and then by node.  The two rules agree unless a version of another node lies, by wall clock, between two
versions of a node whose wall clocks run against their sequence numbers (`ranked_iff`).
-/

namespace Horton

/-- A version of a key: the writer's node, a bound on the time of the write, and the writer's sequence number. -/
structure Version where
  node : Nat
  wall : Nat
  seq : Nat
  deriving DecidableEq, Repr

namespace Version

def ZERO : Version := ⟨0, 0, 0⟩

/-- The version of a mutation in the memtable. -/
def memtable (node seq : Nat) : Version := ⟨node, U64_MAX, seq⟩

/-- The version of an entry of a table. -/
def table (node wall seq : Nat) : Version := ⟨node, wall, seq⟩

end Version

/-- Strictly greater under the merge rule. -/
def versionGt (a b : Version) : Bool :=
  if a.seq = 0 then false
  else if b.seq = 0 then true
  else if a.node = b.node then a.seq > b.seq
  else if a.wall ≠ b.wall then a.wall > b.wall
  else a.node > b.node

namespace Version

/-- Earlier by wall clock, then by node. -/
def Earlier (a b : Version) : Prop := a.wall < b.wall ∨ a.wall = b.wall ∧ a.node < b.node

instance (a b : Version) : Decidable (Earlier a b) := inferInstanceAs (Decidable (_ ∨ _))

/-- The newer of two versions of a node has the earlier wall clock, and a version of another node lies between. -/
def Straddled (vs : List Version) : Prop :=
  ∃ a ∈ vs, ∃ b ∈ vs, ∃ c ∈ vs, a.node = b.node ∧ c.node ≠ a.node ∧ b.seq < a.seq ∧ Earlier a c ∧ Earlier c b

instance (vs : List Version) : Decidable (Straddled vs) := by unfold Straddled; infer_instance

/-- Versions of real mutations: no two of a node share a sequence number. -/
structure Distinct (vs : List Version) : Prop where
  pos : ∀ v ∈ vs, 0 < v.seq
  apart : vs.Pairwise fun a b => a.node = b.node → a.seq ≠ b.seq

variable {a b c : Version} {vs : List Version}

theorem Distinct.seq_ne (h : Distinct vs) (ha : a ∈ vs) (hb : b ∈ vs) (hne : a ≠ b) (hn : a.node = b.node) :
    a.seq ≠ b.seq := by
  have : Std.Symm fun a b : Version => a.node = b.node → a.seq ≠ b.seq := ⟨fun _ _ hab heq => (hab heq.symm).symm⟩
  exact h.apart.forall ha hb hne hn

/-- Between versions of real mutations. -/
theorem versionGt_iff (ha : 0 < a.seq) (hb : 0 < b.seq) :
    versionGt a b = true ↔ a.node = b.node ∧ b.seq < a.seq ∨ a.node ≠ b.node ∧ Earlier b a := by
  unfold versionGt Earlier
  rw [if_neg (by omega), if_neg (by omega)]
  by_cases hn : a.node = b.node
  · rw [if_pos hn]
    simp [hn]
  · rw [if_neg hn]
    by_cases hw : a.wall = b.wall
    · rw [if_neg (not_not.mpr hw)]
      simp only [decide_eq_true_eq]
      omega
    · rw [if_pos hw]
      simp only [decide_eq_true_eq]
      omega

theorem not_versionGt_zero (h : a.seq = 0) : versionGt a b = false := by
  unfold versionGt
  rw [if_pos h]

theorem versionGt_zero (ha : 0 < a.seq) (hb : b.seq = 0) : versionGt a b = true := by
  unfold versionGt
  rw [if_neg (by omega), if_pos hb]

/-- No better version of a table than its bound. -/
theorem not_versionGt_of_bound {node wall seq bound : Nat} (hle : seq ≤ bound)
    (h : versionGt (table node wall bound) b = false) : versionGt (table node wall seq) b = false := by
  unfold versionGt table at *
  dsimp only at *
  by_cases hs : seq = 0
  · rw [if_pos hs]
  · rw [if_neg (by omega)] at h
    rw [if_neg hs]
    by_cases hb : b.seq = 0
    · rw [if_pos hb] at h
      cases h
    · rw [if_neg hb] at h ⊢
      by_cases hn : node = b.node
      · rw [if_pos hn] at h ⊢
        simp only [decide_eq_false_iff_not] at h ⊢
        omega
      · rw [if_neg hn] at h ⊢
        exact h

/-- The merge rule is a strict total order exactly where no version is straddled. -/
theorem ranked_iff (h : Distinct vs) : Ranked (versionGt · ·) vs ↔ ¬Straddled vs := by
  have hgt : ∀ a ∈ vs, ∀ b ∈ vs, versionGt a b = true ↔ a.node = b.node ∧ b.seq < a.seq ∨ a.node ≠ b.node ∧ Earlier b a :=
    fun a ha b hb => versionGt_iff (h.pos a ha) (h.pos b hb)
  constructor
  · rintro hr ⟨a, ha, b, hb, c, hc, hab, hca, hseq, hac, hcb⟩
    have h1 : versionGt a b = true := (hgt a ha b hb).mpr (Or.inl ⟨hab, hseq⟩)
    have h2 : versionGt b c = true := (hgt b hb c hc).mpr (Or.inr ⟨fun hc => hca (hc.symm.trans hab.symm), hcb⟩)
    have h3 : versionGt c a = true := (hgt c hc a ha).mpr (Or.inr ⟨hca, hac⟩)
    exact hr.asymm ha hc (hr.trans a ha b hb c hc h1 h2) h3
  · intro hs
    constructor
    · intro a ha hc
      rcases (hgt a ha a ha).mp hc with ⟨-, hlt⟩ | ⟨hne, -⟩
      · exact lt_irrefl _ hlt
      · exact hne rfl
    · intro a ha b hb hne
      have hseq := h.seq_ne ha hb hne
      rw [hgt a ha b hb, hgt b hb a ha]
      unfold Earlier
      by_cases hn : a.node = b.node
      · have := hseq hn
        omega
      · omega
    · intro a ha b hb c hc hab hbc
      rw [hgt a ha b hb] at hab
      rw [hgt b hb c hc] at hbc
      rw [hgt a ha c hc]
      -- One case for each way the nodes of neighbours can coincide; a wrong order needs a straddled version.
      rcases hab with ⟨hn, hseq⟩ | ⟨hn, hab⟩ <;> rcases hbc with ⟨hn', hseq'⟩ | ⟨hn', hbc⟩
      · exact Or.inl ⟨hn.trans hn', by omega⟩
      · refine Or.inr ⟨fun hac => hn' (hn.symm.trans hac), ?_⟩
        by_contra hca
        refine hs ⟨a, ha, b, hb, c, hc, hn, fun hac => hn' (hn.symm.trans hac.symm), hseq, ?_, hbc⟩
        unfold Earlier at hca ⊢
        omega
      · refine Or.inr ⟨fun hac => hn (hac.trans hn'.symm), ?_⟩
        by_contra hca
        refine hs ⟨b, hb, c, hc, a, ha, hn', hn, hseq', hab, ?_⟩
        unfold Earlier at hca ⊢
        omega
      · by_cases hn'' : a.node = c.node
        · refine Or.inl ⟨hn'', ?_⟩
          by_contra hge
          have hne : c ≠ a := by
            rintro rfl
            unfold Earlier at hab hbc
            omega
          have hseq := h.seq_ne hc ha hne hn''.symm
          exact hs ⟨c, hc, a, ha, b, hb, hn''.symm, hn', by omega, hbc, hab⟩
        · refine Or.inr ⟨hn'', ?_⟩
          unfold Earlier at *
          omega

/-- Below every real version there is `ZERO`. -/
theorem ranked_zero {vs : List Version} (hpos : ∀ v ∈ vs, 0 < v.seq) (h : Ranked (versionGt · ·) vs) :
    Ranked (versionGt · ·) (ZERO :: vs) := by
  have hz : ∀ v, ¬versionGt ZERO v = true := fun v => by rw [not_versionGt_zero rfl]; exact Bool.false_ne_true
  constructor
  · intro a ha
    rcases List.mem_cons.mp ha with rfl | ha
    · exact hz _
    · exact h.irrefl a ha
  · intro a ha b hb hne
    rcases List.mem_cons.mp ha with rfl | ha <;> rcases List.mem_cons.mp hb with rfl | hb
    · exact absurd rfl hne
    · exact Or.inr (versionGt_zero (hpos b hb) rfl)
    · exact Or.inl (versionGt_zero (hpos a ha) rfl)
    · exact h.total a ha b hb hne
  · intro a ha b hb c hc hab hbc
    rcases List.mem_cons.mp ha with rfl | ha
    · exact absurd hab (hz b)
    rcases List.mem_cons.mp hb with rfl | hb
    · exact absurd hbc (hz c)
    rcases List.mem_cons.mp hc with rfl | hc
    · exact versionGt_zero (hpos a ha) rfl
    · exact h.trans a ha b hb c hc hab hbc

end Version

end Horton
