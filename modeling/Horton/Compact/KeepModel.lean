import Horton.Compact.KeepSet
import Mathlib.Data.List.Sort

/-!
# The model of the keep-set

`model.rs` says in a few lines which versions of a key a compaction keeps: for each threshold the first version that meets it,
and nothing when the newest is a tombstone that may go.  For a key without range tombstones around it, in a job with nothing
outside that a drop could uncover, the merge emits exactly these (`merge_eq_model`).
-/

namespace Horton

open Sstable

/-- One version of a key in the model. -/
structure ModelVersion where
  seq : Nat
  tombstone : Bool
  deriving DecidableEq, Repr

def MODEL_MAX_SNAPSHOTS : Nat := 8

def modelMayDropTombstone (tombSeq : Nat) (bottommost : Bool) (oldestSnapshot : Nat) : Bool :=
  bottommost && decide (tombSeq < oldestSnapshot)

/-- The walk over the thresholds: the first version at or below each is kept, once. -/
def modelServe (versions : List ModelVersion) : List Nat → List Nat → List Nat
  | kept, [] => kept
  | kept, th :: ths =>
    match versions.findIdx? fun v => decide (v.seq ≤ th) with
    | some vi => modelServe versions (if vi ∈ kept then kept else kept ++ [vi]) ths
    | none => modelServe versions kept ths

/-- The indices of the versions that survive, in ascending order; `versions` is newest first. -/
def modelKeepSet (versions : List ModelVersion) (snapshots : List Nat) (bottommost : Bool) (oldestSnapshot : Nat) :
    List Nat :=
  if bottommost && versions.head?.any fun newest =>
      newest.tombstone && modelMayDropTombstone newest.seq true oldestSnapshot then []
  else (modelServe versions [] (U64_MAX :: snapshots.take MODEL_MAX_SNAPSHOTS)).insertionSort (· ≤ ·)

/-- A version as the model sees it: a value that the purge turns into a tombstone is one. -/
def JobRules.model (r : JobRules) (e : SstEntry) : ModelVersion := ⟨e.seq, e.tombstone || r.purged e⟩

section Walk

variable {versions : List ModelVersion} {kept ths : List Nat} {i : Nat}

theorem mem_modelServe : i ∈ modelServe versions kept ths ↔
    i ∈ kept ∨ ∃ th ∈ ths, versions.findIdx? (fun v => decide (v.seq ≤ th)) = some i := by
  induction ths generalizing kept with
  | nil => simp [modelServe]
  | cons th ths ih =>
    rw [modelServe]
    cases hfind : versions.findIdx? fun v => decide (v.seq ≤ th) with
    | none =>
      dsimp only
      rw [ih]
      simp [hfind]
    | some vi =>
      dsimp only
      rw [ih]
      by_cases hmem : vi ∈ kept
      · rw [if_pos hmem]
        constructor
        · rintro (h | ⟨t, ht, h⟩)
          · exact Or.inl h
          · exact Or.inr ⟨t, List.mem_cons_of_mem _ ht, h⟩
        · rintro (h | ⟨t, ht, h⟩)
          · exact Or.inl h
          · rcases List.mem_cons.mp ht with rfl | ht
            · rw [hfind] at h
              exact Or.inl (Option.some.inj h ▸ hmem)
            · exact Or.inr ⟨t, ht, h⟩
      · rw [if_neg hmem]
        constructor
        · rintro (h | ⟨t, ht, h⟩)
          · rcases List.mem_append.mp h with h | h
            · exact Or.inl h
            · rw [List.mem_singleton.mp h]
              exact Or.inr ⟨th, List.mem_cons_self, hfind⟩
          · exact Or.inr ⟨t, List.mem_cons_of_mem _ ht, h⟩
        · rintro (h | ⟨t, ht, h⟩)
          · exact Or.inl (List.mem_append_left _ h)
          · rcases List.mem_cons.mp ht with rfl | ht
            · rw [hfind] at h
              exact Or.inl (List.mem_append_right _ (by simp [Option.some.inj h]))
            · exact Or.inr ⟨t, ht, h⟩

theorem nodup_modelServe (h : kept.Nodup) : (modelServe versions kept ths).Nodup := by
  induction ths generalizing kept with
  | nil => exact h
  | cons th ths ih =>
    rw [modelServe]
    cases versions.findIdx? fun v => decide (v.seq ≤ th) with
    | none => exact ih h
    | some vi =>
      apply ih
      by_cases hmem : vi ∈ kept
      · rw [if_pos hmem]
        exact h
      · rw [if_neg hmem]
        apply List.Nodup.append h (List.nodup_singleton vi)
        intro x hx hx'
        exact hmem (List.mem_singleton.mp hx' ▸ hx)

/-- The indices come strictly ascending. -/
theorem sorted_modelServe : ((modelServe versions [] ths).insertionSort (· ≤ ·)).Pairwise (· < ·) := by
  have hle := List.pairwise_insertionSort (· ≤ ·) (modelServe versions [] ths)
  have hne : ((modelServe versions [] ths).insertionSort (· ≤ ·)).Nodup :=
    (List.perm_insertionSort _ _).nodup_iff.mpr (nodup_modelServe List.nodup_nil)
  exact hle.imp₂ (fun _ _ h h' => lt_of_le_of_ne h h') hne

end Walk

section Refines

variable {r : JobRules} {cover : Bytes → Nat} {all vs : List SstEntry} {key : Bytes} {e : SstEntry} {i t : Nat}

/-- The versions of one key, newest first. -/
structure KeyRun (key : Bytes) (vs : List SstEntry) : Prop where
  key_eq : ∀ e ∈ vs, e.key = key
  newest_first : vs.Pairwise fun a b => b.seq < a.seq

/-- The versions of a key among all. -/
def versionsOf (key : Bytes) (all : List SstEntry) : List SstEntry := all.filter fun e => decide (e.key = key)

theorem mem_versionsOf : e ∈ versionsOf key all ↔ e ∈ all ∧ e.key = key := by
  unfold versionsOf
  rw [List.mem_filter, decide_eq_true_eq]

theorem keyRun_versionsOf (h : all.Pairwise SstEntry.Before) : KeyRun key (versionsOf key all) where
  key_eq _ he := (mem_versionsOf.mp he).2
  newest_first := by
    apply List.Pairwise.imp_of_mem _ (h.sublist List.filter_sublist)
    intro a b ha hb hbefore
    have hk : a.key = b.key := (mem_versionsOf.mp ha).2.trans (mem_versionsOf.mp hb).2.symm
    rcases hbefore with hlt | ⟨-, hlt⟩
    · exact absurd (hk ▸ hlt) (lt_irrefl _)
    · exact hlt

theorem KeyRun.before (h : KeyRun key vs) : vs.Pairwise SstEntry.Before := by
  apply List.Pairwise.imp_of_mem _ h.newest_first
  intro a b ha hb hlt
  exact Or.inr ⟨(h.key_eq a ha).trans (h.key_eq b hb).symm, hlt⟩

theorem merge_before (h : all.Pairwise SstEntry.Before) : (KeyMerge.IDLE.merge r cover all).Pairwise SstEntry.Before := by
  rw [KeyMerge.merge_eq h]
  apply h.filterMap
  intro a b hab a' ha b' hb
  split at ha <;> cases ha
  split at hb <;> cases hb
  exact hab

/-- Only the versions of its key decide on a version. -/
theorem keeps_versionsOf (hk : e.key = key) : r.Keeps cover (versionsOf key all) e ↔ r.Keeps cover all e := by
  have hdrops : r.Drops (versionsOf key all) e.key ↔ r.Drops all e.key := by
    constructor
    · rintro ⟨h, hh, hhk, hmax, hdrop⟩
      exact ⟨h, (mem_versionsOf.mp hh).1, hhk, fun x hx hxk => hmax x (mem_versionsOf.mpr ⟨hx, hxk.trans hk⟩) hxk, hdrop⟩
    · rintro ⟨h, hh, hhk, hmax, hdrop⟩
      exact ⟨h, mem_versionsOf.mpr ⟨hh, hhk.trans hk⟩, hhk, fun x hx hxk => hmax x (mem_versionsOf.mp hx).1 hxk, hdrop⟩
  have hnewest : ∀ t, NewestAt (versionsOf key all) t e ↔ NewestAt all t e := by
    intro t
    unfold NewestAt
    apply and_congr_right
    intro _
    constructor
    · exact fun h x hx hxk => h x (mem_versionsOf.mpr ⟨hx, hxk.trans hk⟩) hxk
    · exact fun h x hx hxk => h x (mem_versionsOf.mp hx).1 hxk
  unfold JobRules.Keeps
  simp only [hdrops, hnewest]

/-- The first version that meets a threshold is its newest. -/
theorem findIdx_iff (h : KeyRun key vs) (he : vs[i]? = some e) :
    (vs.map r.model).findIdx? (fun v => decide (v.seq ≤ t)) = some i ↔ NewestAt vs t e := by
  obtain ⟨hi, rfl⟩ := List.getElem?_eq_some_iff.mp he
  have hpair := List.pairwise_iff_getElem.mp h.newest_first
  rw [List.findIdx?_map, List.findIdx?_eq_some_iff_getElem]
  simp only [Function.comp_apply, JobRules.model]
  constructor
  · rintro ⟨_, hle, hfirst⟩
    refine ⟨of_decide_eq_true hle, ?_⟩
    intro x hx _ hlt
    obtain ⟨j, hj, rfl⟩ := List.mem_iff_getElem.mp hx
    rcases lt_trichotomy j i with hji | rfl | hij
    · exact not_le.mp fun hc => hfirst j hji (decide_eq_true hc)
    · exact absurd hlt (lt_irrefl _)
    · exact absurd (hpair i j hi hj hij) (not_lt.mpr (le_of_lt hlt))
  · rintro ⟨hle, hnewer⟩
    refine ⟨hi, decide_eq_true hle, ?_⟩
    intro j hji hc
    have hj := Nat.lt_trans hji hi
    apply absurd (of_decide_eq_true hc)
    apply not_le.mpr
    have hkey : vs[j].key = vs[i].key :=
      (h.key_eq _ (List.getElem_mem hj)).trans (h.key_eq _ (List.getElem_mem hi)).symm
    exact hnewer vs[j] (List.getElem_mem hj) hkey (hpair j i hj hi hji)

/-- The model drops a key whole when the merge does, where nothing outside of the job stands against it. -/
theorem drops_iff_model (h : KeyRun key vs) (hclear : ∀ seq < r.oldestSnapshot, r.origin.clear r.origin.maxWall seq = true) :
    r.Drops vs key ↔ (r.bottommost && (vs.map r.model).head?.any fun newest =>
      newest.tombstone && modelMayDropTombstone newest.seq true r.oldestSnapshot) = true := by
  cases vs with
  | nil =>
    constructor
    · rintro ⟨y, hy, -⟩
      cases hy
    · intro hc
      simp at hc
  | cons newest vs =>
    have hfirst : r.Drops ([] ++ newest :: vs) newest.key ↔ _ := KeyMerge.drops_first h.before (by simp)
    rw [List.nil_append, h.key_eq newest List.mem_cons_self] at hfirst
    rw [hfirst]
    unfold JobRules.mayDropKey
    simp only [List.map_cons, List.head?_cons, Option.any_some, JobRules.model, JobRules.purged, modelMayDropTombstone,
      Bool.and_eq_true, Bool.or_eq_true, Bool.not_eq_true', decide_eq_true_eq, true_and]
    constructor
    · rintro ⟨⟨⟨hb, hgone⟩, hlt⟩, -⟩
      refine ⟨hb, ?_, hlt⟩
      cases htomb : newest.tombstone with
      | true => exact Or.inl rfl
      | false =>
        rw [htomb] at hgone
        have hexpired := hgone.resolve_left (by simp)
        exact Or.inr ⟨⟨rfl, hexpired.1⟩, hexpired.2⟩
    · rintro ⟨hb, hgone, hlt⟩
      refine ⟨⟨⟨hb, ?_⟩, hlt⟩, hclear _ hlt⟩
      rcases hgone with htomb | ⟨⟨-, hne⟩, hle⟩
      · exact Or.inl htomb
      · exact Or.inr ⟨hne, hle⟩

/-- The kept indices are those of the keep-set. -/
theorem mem_modelKeepSet (h : KeyRun key vs) (hcover : cover key = 0) (hsnap : r.snapshots.length ≤ MODEL_MAX_SNAPSHOTS)
    (hclear : ∀ seq < r.oldestSnapshot, r.origin.clear r.origin.maxWall seq = true) (he : vs[i]? = some e) :
    i ∈ modelKeepSet (vs.map r.model) r.snapshots r.bottommost r.oldestSnapshot ↔ r.Keeps cover vs e := by
  have hkey : e.key = key := h.key_eq e (List.mem_of_getElem? he)
  unfold modelKeepSet JobRules.Keeps
  rw [hkey, hcover, List.take_of_length_le hsnap]
  by_cases hdrops : r.Drops vs key
  · rw [if_pos ((drops_iff_model h hclear).mp hdrops)]
    simp [hdrops]
  · rw [if_neg fun hc => hdrops ((drops_iff_model h hclear).mpr hc), List.mem_insertionSort, mem_modelServe]
    simp only [List.not_mem_nil, false_or, hdrops, not_false_eq_true, Nat.zero_le, true_and]
    apply exists_congr
    intro th
    apply and_congr_right
    intro _
    exact findIdx_iff h he

theorem sorted_modelKeepSet (versions : List ModelVersion) (snapshots : List Nat) (bottommost : Bool) (oldest : Nat) :
    (modelKeepSet versions snapshots bottommost oldest).Pairwise (· < ·) := by
  unfold modelKeepSet
  split
  · exact List.Pairwise.nil
  · exact sorted_modelServe

end Refines

/-- The merge emits what the model keeps.  In the merge of any versions in order, what goes out of a key that no tombstone
covers is, in order, what the model keeps of the versions of that key. -/
theorem merge_eq_model (r : JobRules) (cover : Bytes → Nat) (all : List SstEntry) (key : Bytes)
    (h : all.Pairwise SstEntry.Before) (hcover : cover key = 0) (hsnap : r.snapshots.length ≤ MODEL_MAX_SNAPSHOTS)
    (hclear : ∀ seq < r.oldestSnapshot, r.origin.clear r.origin.maxWall seq = true) :
    versionsOf key (KeyMerge.IDLE.merge r cover all) =
      (modelKeepSet ((versionsOf key all).map r.model) r.snapshots r.bottommost r.oldestSnapshot).filterMap fun i =>
        (versionsOf key all)[i]?.map r.purge := by
  have hrun : KeyRun key (versionsOf key all) := keyRun_versionsOf h
  have hanti : Std.Antisymm fun a b : SstEntry => b.seq < a.seq := ⟨fun _ _ hab hba => absurd hab (lt_asymm hba)⟩
  have hirrefl : Std.Irrefl fun a b : SstEntry => b.seq < a.seq := ⟨fun _ => lt_irrefl _⟩
  apply List.Pairwise.eq_of_mem_iff (r := fun a b : SstEntry => b.seq < a.seq)
  · exact (keyRun_versionsOf (merge_before h)).newest_first
  · apply (sorted_modelKeepSet _ _ _ _).filterMap
    intro i j hij a ha b hb
    obtain ⟨ea, hea, rfl⟩ := Option.map_eq_some_iff.mp ha
    obtain ⟨eb, heb, rfl⟩ := Option.map_eq_some_iff.mp hb
    obtain ⟨hi, rfl⟩ := List.getElem?_eq_some_iff.mp hea
    obtain ⟨hj, rfl⟩ := List.getElem?_eq_some_iff.mp heb
    exact List.pairwise_iff_getElem.mp hrun.newest_first i j hi hj hij
  · intro y
    rw [mem_versionsOf, KeyMerge.mem_merge h, List.mem_filterMap]
    constructor
    · rintro ⟨⟨e, he, hkeeps, rfl⟩, hk⟩
      have hk' : e.key = key := hk
      obtain ⟨i, hi⟩ := List.mem_iff_getElem?.mp (mem_versionsOf.mpr ⟨he, hk'⟩)
      refine ⟨i, ?_, by rw [hi]; rfl⟩
      exact (mem_modelKeepSet hrun hcover hsnap hclear hi).mpr ((keeps_versionsOf hk').mpr hkeeps)
    · rintro ⟨i, hi, hy⟩
      obtain ⟨e, he, rfl⟩ := Option.map_eq_some_iff.mp hy
      obtain ⟨hmem, hk⟩ := mem_versionsOf.mp (List.mem_of_getElem? he)
      exact ⟨⟨e, hmem, (keeps_versionsOf hk).mp ((mem_modelKeepSet hrun hcover hsnap hclear he).mp hi), rfl⟩, hk⟩

/-- A key with a snapshot between its versions, beside a key whose newest version is a tombstone below the snapshot. -/
theorem merge_eq_model_snapshot :
    versionsOf [3] (KeyMerge.IDLE.merge overlapRules (fun _ => 0)
      [⟨[2], [], 3, true, 0⟩, ⟨[3], [1], 6, false, 0⟩, ⟨[3], [2], 5, false, 0⟩, ⟨[3], [4], 2, false, 0⟩]) =
      [⟨[3], [1], 6, false, 0⟩, ⟨[3], [4], 2, false, 0⟩] := by
  have hclear : ∀ seq < overlapRules.oldestSnapshot, overlapRules.origin.clear overlapRules.origin.maxWall seq = true := by
    intro seq hseq
    have hlt : seq < U64_MAX := lt_of_lt_of_le hseq (by decide)
    show (decide (seq < U64_MAX) && _) = true
    rw [decide_eq_true hlt]
    rfl
  rw [merge_eq_model overlapRules (fun _ => 0) _ [3] (by simp [SstEntry.Before]; decide) rfl (by decide) hclear]
  decide

end Horton
