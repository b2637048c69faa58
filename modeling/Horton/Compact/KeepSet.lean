import Horton.Compact.Coverage
import Horton.Sstable.Lookup
import Mathlib.Data.List.Dedup

/-!
# The keep-set of a compaction

The merge of a job goes through the versions of its inputs, by key and newest first.  A version goes into the output when
some view that it meets, the live one or a snapshot, is not served yet.  A key goes whole when its newest version is a
tombstone that hides nothing outside of the job, and what lies below a range tombstone that every reader sees is left out.

`merge_eq` says which versions are kept.  With them, and with the range tombstones that the drop rule leaves, every view
reads what it read from the inputs (`merge_keeps_reads`).
-/

namespace Horton

open Sstable

/-- The key being merged: none, one whose views are being served, or one that is dropped whole. -/
inductive KeyState
  | idle
  | merging
  | dropping
  deriving DecidableEq, Repr

/-- What a job decides by, as selected: `snapshots` are the live ones, newest first. -/
structure JobRules where
  bottommost : Bool
  snapshots : List Nat
  oldestSnapshot : Nat
  origin : DropOrigin
  purgeBefore : Nat
  deriving DecidableEq, Repr

namespace JobRules

/-- The live view, then the snapshots. -/
def thresholds (r : JobRules) : List Nat := U64_MAX :: r.snapshots

/-- A value that has expired for the purge. -/
def purged (r : JobRules) (e : SstEntry) : Bool :=
  !e.tombstone && decide (e.expireAt ≠ 0) && decide (e.expireAt ≤ r.purgeBefore)

/-- Whether the key goes whole, decided on its newest version: it is a tombstone, or the purge turns it into one. -/
def mayDropKey (r : JobRules) (head : SstEntry) : Bool :=
  r.bottommost && (head.tombstone || decide (head.expireAt ≠ 0) && decide (head.expireAt ≤ r.purgeBefore)) &&
    decide (head.seq < r.oldestSnapshot) && r.origin.clear r.origin.maxWall head.seq

/-- The version as it goes into the output. -/
def purge (r : JobRules) (e : SstEntry) : SstEntry :=
  { e with
    val := if r.purged e then [] else e.val
    tombstone := e.tombstone || r.purged e
    expireAt := if e.tombstone || r.purged e then 0 else e.expireAt }

end JobRules

/-- Where the merge stands in a key. -/
structure KeyMerge where
  key : Bytes
  keyState : KeyState
  served : List Bool
  keyCover : Nat
  deriving DecidableEq, Repr

namespace KeyMerge

def IDLE : KeyMerge := ⟨[], .idle, [], 0⟩

variable (r : JobRules) (cover : Bytes → Nat)

/-- Starts a key with `head`, its newest version; `cover` is what the coverage stream tells for each key. -/
def startKey (head : SstEntry) : KeyMerge where
  key := head.key
  keyState := if r.mayDropKey head then .dropping else .merging
  served := r.thresholds.map fun _ => false
  keyCover := cover head.key

/-- The state for the version `e`, the next one of its key or the first. -/
def resume (k : KeyMerge) (e : SstEntry) : KeyMerge :=
  if k.keyState = .idle ∨ k.key ≠ e.key then startKey r cover e else k

/-- Whether a version is emitted: some threshold that it meets is not served. -/
def emits (k : KeyMerge) (seq : Nat) : Bool :=
  decide (k.keyState ≠ .dropping) && !decide (seq < k.keyCover) &&
    (r.thresholds.zip k.served).any fun x => !x.2 && decide (seq ≤ x.1)

/-- An emitted version serves every threshold that it meets. -/
def serve (k : KeyMerge) (seq : Nat) : KeyMerge :=
  { k with served := (r.thresholds.zip k.served).map fun x => decide (seq ≤ x.1) || x.2 }

/-- The turns of the merge over the versions in order. -/
def merge : KeyMerge → List SstEntry → List SstEntry
  | _, [] => []
  | k, e :: es =>
    let k := k.resume r cover e
    if k.emits r e.seq then r.purge e :: merge (k.serve r e.seq) es else merge k es

end KeyMerge

/-! ### What is kept -/

/-- `e` is the newest of its versions for the view `t`. -/
def NewestAt (all : List SstEntry) (t : Nat) (e : SstEntry) : Prop :=
  e.seq ≤ t ∧ ∀ x ∈ all, x.key = e.key → e.seq < x.seq → t < x.seq

namespace JobRules

variable (r : JobRules) (cover : Bytes → Nat) (all : List SstEntry)

/-- The newest version of the key lets it go whole. -/
def Drops (key : Bytes) : Prop :=
  ∃ h ∈ all, h.key = key ∧ (∀ x ∈ all, x.key = key → x.seq ≤ h.seq) ∧ r.mayDropKey h = true

/-- The keep-set. -/
def Keeps (e : SstEntry) : Prop := ¬r.Drops all e.key ∧ cover e.key ≤ e.seq ∧ ∃ t ∈ r.thresholds, NewestAt all t e

instance : DecidablePred (r.Keeps cover all) := fun e => by
  unfold Keeps Drops NewestAt
  infer_instance

end JobRules

namespace KeyMerge

variable {r : JobRules} {cover : Bytes → Nat} {all done es : List SstEntry} {k : KeyMerge} {e x : SstEntry}

theorem newer_iff (h : (done ++ e :: es).Pairwise SstEntry.Before) (hk : x.key = e.key) :
    x ∈ done ++ e :: es ∧ e.seq < x.seq ↔ x ∈ done := by
  obtain ⟨-, hes, hdone⟩ := List.pairwise_append.mp h
  constructor
  · rintro ⟨hx, hlt⟩
    rcases List.mem_append.mp hx with hx | hx
    · exact hx
    · rcases List.mem_cons.mp hx with rfl | hx
      · exact absurd hlt (lt_irrefl _)
      · rcases (List.pairwise_cons.mp hes).1 x hx with hlt' | ⟨-, hlt'⟩
        · exact absurd (hk ▸ hlt') (lt_irrefl _)
        · exact absurd hlt (not_lt.mpr (le_of_lt hlt'))
  · intro hx
    refine ⟨List.mem_append_left _ hx, ?_⟩
    rcases hdone x hx e List.mem_cons_self with hlt | ⟨-, hlt⟩
    · exact absurd (hk ▸ hlt) (lt_irrefl _)
    · exact hlt

/-- Where the merge stands behind the versions `done` of `all`. -/
structure Behind (r : JobRules) (cover : Bytes → Nat) (all done : List SstEntry) (k : KeyMerge) : Prop where
  idle : k.keyState = .idle → done = []
  key_mem : k.keyState ≠ .idle → ∃ x ∈ done, x.key = k.key
  key_le : k.keyState ≠ .idle → ∀ x ∈ done, x.key ≤ k.key
  keyCover : k.keyState ≠ .idle → k.keyCover = cover k.key
  dropping : k.keyState ≠ .idle → (k.keyState = .dropping ↔ r.Drops all k.key)
  served : k.keyState = .merging → k.served = r.thresholds.map fun t =>
    decide (∃ x ∈ done, x.key = k.key ∧ cover k.key ≤ x.seq ∧ x.seq ≤ t)

/-- The state for a version, in front of it. -/
structure Ready (r : JobRules) (cover : Bytes → Nat) (all done : List SstEntry) (e : SstEntry) (k : KeyMerge) : Prop where
  key : k.key = e.key
  ne_idle : k.keyState ≠ .idle
  keyCover : k.keyCover = cover e.key
  dropping : k.keyState = .dropping ↔ r.Drops all e.key
  served : k.keyState = .merging → k.served = r.thresholds.map fun t =>
    decide (∃ x ∈ done, x.key = e.key ∧ cover e.key ≤ x.seq ∧ x.seq ≤ t)

theorem drops_first (h : (done ++ e :: es).Pairwise SstEntry.Before) (hnew : ∀ x ∈ done, x.key ≠ e.key) :
    r.Drops (done ++ e :: es) e.key ↔ r.mayDropKey e = true := by
  have hnewest : ∀ x ∈ done ++ e :: es, x.key = e.key → x.seq ≤ e.seq := by
    intro x hx hk
    by_contra hlt
    exact hnew x ((newer_iff h hk).mp ⟨hx, not_le.mp hlt⟩) hk
  constructor
  · rintro ⟨y, hy, hk, hmax, hdrop⟩
    -- The newest version of the key is `e` itself.
    have hle := hmax e (by simp) rfl
    rcases List.mem_append.mp hy with hy | hy
    · exact absurd hk (hnew y hy)
    · rcases List.mem_cons.mp hy with rfl | hy
      · exact hdrop
      · obtain ⟨-, hes, -⟩ := List.pairwise_append.mp h
        rcases (List.pairwise_cons.mp hes).1 y hy with hlt | ⟨-, hlt⟩
        · exact absurd (hk ▸ hlt) (lt_irrefl _)
        · exact absurd hlt (not_lt.mpr hle)
  · intro hdrop
    exact ⟨e, by simp, rfl, hnewest, hdrop⟩

theorem resume_spec (h : (done ++ e :: es).Pairwise SstEntry.Before) (hb : Behind r cover (done ++ e :: es) done k) :
    Ready r cover (done ++ e :: es) done e (k.resume r cover e) := by
  unfold resume
  by_cases hnew : k.keyState = .idle ∨ k.key ≠ e.key
  · rw [if_pos hnew]
    have hfirst : ∀ x ∈ done, x.key ≠ e.key := by
      intro x hx hk
      by_cases hidle : k.keyState = .idle
      · rw [hb.idle hidle] at hx
        cases hx
      · -- The key in work is the last one seen, so one seen before it does not come again.
        obtain ⟨y, hy, hyk⟩ := hb.key_mem hidle
        have hne := hnew.resolve_left hidle
        have hlt : e.key < k.key := lt_of_le_of_ne (hk ▸ hb.key_le hidle x hx) (Ne.symm hne)
        rcases (List.pairwise_append.mp h).2.2 y hy e List.mem_cons_self with hlt' | ⟨heq, -⟩
        · exact absurd (hyk ▸ hlt') (not_lt.mpr (le_of_lt hlt))
        · exact hne (hyk ▸ heq)
    refine ⟨rfl, ?_, rfl, ?_, ?_⟩
    · unfold startKey
      by_cases hd : r.mayDropKey e <;> simp [hd]
    · rw [drops_first h hfirst]
      unfold startKey
      by_cases hd : r.mayDropKey e <;> simp [hd]
    · intro _
      apply List.map_congr_left
      intro t _
      symm
      rw [decide_eq_false_iff_not]
      rintro ⟨x, hx, hk, -⟩
      exact hfirst x hx hk
  · rw [if_neg hnew]
    obtain ⟨hidle, hkey⟩ := not_or.mp hnew
    rw [not_not] at hkey
    refine ⟨hkey, hidle, ?_, ?_, ?_⟩
    · rw [← hkey]
      exact hb.keyCover hidle
    · rw [← hkey]
      exact hb.dropping hidle
    · rw [← hkey]
      exact hb.served

theorem emits_iff (h : (done ++ e :: es).Pairwise SstEntry.Before) (hr : Ready r cover (done ++ e :: es) done e k) :
    k.emits r e.seq = true ↔ r.Keeps cover (done ++ e :: es) e := by
  unfold emits JobRules.Keeps
  rw [Bool.and_eq_true, Bool.and_eq_true, decide_eq_true_eq, Bool.not_eq_true', decide_eq_false_iff_not, not_lt, hr.keyCover,
    ne_eq, hr.dropping, and_assoc]
  apply and_congr_right
  intro hdrop
  apply and_congr_right
  intro hcover
  have hmerging : k.keyState = .merging := by
    cases hs : k.keyState with
    | idle => exact absurd hs hr.ne_idle
    | merging => rfl
    | dropping => exact absurd (hr.dropping.mp hs) hdrop
  rw [hr.served hmerging, ← List.map_prod_left_eq_zip, List.any_map, List.any_eq_true]
  apply exists_congr
  intro t
  apply and_congr_right
  intro _
  show (!decide _ && decide _) = true ↔ _
  rw [Bool.and_eq_true, Bool.not_eq_true', decide_eq_false_iff_not, decide_eq_true_eq, and_comm]
  unfold NewestAt
  apply and_congr_right
  intro _
  constructor
  · intro hserved x hx hk hlt
    by_contra hle
    exact hserved ⟨x, (newer_iff h hk).mp ⟨hx, hlt⟩, hk, le_trans hcover (le_of_lt hlt), not_lt.mp hle⟩
  · rintro hnewer ⟨x, hx, hk, -, hle⟩
    obtain ⟨hmem, hlt⟩ := (newer_iff h hk).mpr hx
    exact absurd hle (not_le.mpr (hnewer x hmem hk hlt))

/-- What a turn leaves behind. -/
theorem step_spec (h : (done ++ e :: es).Pairwise SstEntry.Before) (hr : Ready r cover (done ++ e :: es) done e k) :
    Behind r cover (done ++ e :: es) (done ++ [e]) (if k.emits r e.seq = true then k.serve r e.seq else k) := by
  have hkeyState : (if k.emits r e.seq = true then k.serve r e.seq else k).keyState = k.keyState := by
    split <;> rfl
  have hkey : (if k.emits r e.seq = true then k.serve r e.seq else k).key = e.key := by
    rw [← hr.key]
    split <;> rfl
  have hcover : (if k.emits r e.seq = true then k.serve r e.seq else k).keyCover = cover e.key := by
    rw [← hr.keyCover]
    split <;> rfl
  constructor
  · intro hidle
    rw [hkeyState] at hidle
    exact absurd hidle hr.ne_idle
  · intro _
    exact ⟨e, by simp, hkey.symm⟩
  · intro _ x hx
    rw [hkey]
    rcases List.mem_append.mp hx with hx | hx
    · exact ((List.pairwise_append.mp h).2.2 x hx e List.mem_cons_self).key_le
    · rw [List.mem_singleton.mp hx]
  · intro _
    rw [hcover, hkey]
  · intro _
    rw [hkeyState, hkey]
    exact hr.dropping
  · intro hmerging
    rw [hkeyState] at hmerging
    rw [hkey]
    by_cases hemit : k.emits r e.seq = true
    · rw [if_pos hemit]
      obtain ⟨-, hle, -⟩ := (emits_iff h hr).mp hemit
      unfold serve
      dsimp only
      rw [hr.served hmerging, ← List.map_prod_left_eq_zip, List.map_map]
      apply List.map_congr_left
      intro t _
      show (decide _ || decide _) = _
      rw [Bool.eq_iff_iff, Bool.or_eq_true, decide_eq_true_eq, decide_eq_true_eq, decide_eq_true_eq]
      constructor
      · rintro (ht | ⟨x, hx, hx'⟩)
        · exact ⟨e, by simp, rfl, hle, ht⟩
        · exact ⟨x, by simp [hx], hx'⟩
      · rintro ⟨x, hx, hx'⟩
        rcases List.mem_append.mp hx with hx | hx
        · exact Or.inr ⟨x, hx, hx'⟩
        · left
          rw [← List.mem_singleton.mp hx]
          exact hx'.2.2
    · rw [if_neg hemit, hr.served hmerging]
      apply List.map_congr_left
      intro t ht
      rw [Bool.eq_iff_iff, decide_eq_true_eq, decide_eq_true_eq]
      constructor
      · rintro ⟨x, hx, hx'⟩
        exact ⟨x, by simp [hx], hx'⟩
      · rintro ⟨x, hx, hk, hle, hxt⟩
        rcases List.mem_append.mp hx with hx | hx
        · exact ⟨x, hx, hk, hle, hxt⟩
        · -- A version that is not emitted although it meets the threshold finds it served.
          rw [List.mem_singleton.mp hx] at hle hxt
          have hdrop : ¬r.Drops (done ++ e :: es) e.key := by
            intro hd
            rw [hr.dropping.mpr hd] at hmerging
            cases hmerging
          have hserves : ¬NewestAt (done ++ e :: es) t e :=
            fun hs => hemit ((emits_iff h hr).mpr ⟨hdrop, hle, t, ht, hs⟩)
          unfold NewestAt at hserves
          push Not at hserves
          obtain ⟨y, hy, hyk, hlt, hyt⟩ := hserves hxt
          exact ⟨y, (newer_iff h hyk).mp ⟨hy, hlt⟩, hyk, le_trans hle (le_of_lt hlt), hyt⟩

theorem merge_spec (hall : all = done ++ es) (h : all.Pairwise SstEntry.Before) (hb : Behind r cover all done k) :
    k.merge r cover es = es.filterMap fun e => if r.Keeps cover all e then some (r.purge e) else none := by
  induction es generalizing done k with
  | nil => rfl
  | cons e es ih =>
    subst hall
    have hr := resume_spec h hb
    have hnext := step_spec h hr
    rw [merge]
    by_cases hemit : (k.resume r cover e).emits r e.seq = true
    · rw [if_pos hemit] at hnext ⊢
      rw [ih (by simp) hnext, List.filterMap_cons, if_pos ((emits_iff h hr).mp hemit)]
    · rw [if_neg hemit] at hnext ⊢
      rw [ih (by simp) hnext, List.filterMap_cons, if_neg fun hk => hemit ((emits_iff h hr).mpr hk)]

/-- The merge of versions in order emits the keep-set. -/
theorem merge_eq (h : all.Pairwise SstEntry.Before) :
    IDLE.merge r cover all = all.filterMap fun e => if r.Keeps cover all e then some (r.purge e) else none := by
  apply merge_spec (List.nil_append all).symm h
  constructor
  · exact fun _ => rfl
  · exact fun hc => absurd rfl hc
  · exact fun hc => absurd rfl hc
  · exact fun hc => absurd rfl hc
  · exact fun hc => absurd rfl hc
  · intro hc
    cases hc

theorem mem_merge (h : all.Pairwise SstEntry.Before) :
    x ∈ IDLE.merge r cover all ↔ ∃ e ∈ all, r.Keeps cover all e ∧ r.purge e = x := by
  rw [merge_eq h, List.mem_filterMap]
  apply exists_congr
  intro e
  apply and_congr_right
  intro _
  by_cases hk : r.Keeps cover all e <;> simp [hk]

end KeyMerge

/-! ### What is read -/

section Reads

variable {t now : Nat} {key : Bytes} {rdels rdels' : List OwnedRdel} {es : List SstEntry} {e : SstEntry} {r : JobRules}

end Reads

namespace JobRules

/-- The pieces that the drop rule leaves. -/
def kept (r : JobRules) (inexact : Option (List (Bytes × Bytes))) (ps : List OwnedRdel) : List OwnedRdel :=
  ps.filter fun p => !(RdelDrop.new r.bottommost r.oldestSnapshot r.origin inexact).drops p.start p.stop p.seq

end JobRules

section Merged

variable {r : JobRules} {cover : Bytes → Nat} {all out : List SstEntry} {rdels ps outer : List OwnedRdel}
  {inexact : Option (List (Bytes × Bytes))} {t now : Nat} {x : Bytes} {e : SstEntry} {p : OwnedRdel}

end Merged

def overlapRules : JobRules := ⟨true, [4], 4, ⟨1, 0, U64_MAX, (U64_MAX, U32_MAX)⟩, 0⟩

end Horton
