import Horton.Compact.RdelMerger
import Horton.KeyBound

/-!
# The range tombstones of a compaction

A job writes its outputs one behind the other.  Each merges the tombstones of the inputs that are still live and keeps what
lies between the last key of the output before it and its own; its commit retires the inputs that end there, and narrows
those that go on.

A commit leaves the tombstones above its last key alone (`commit_spec`), so every output holds for its keys what the inputs
held before the job began (`rdels_keep_coverage`).
-/

namespace Horton

open BlockDev Sstable

variable (sh : Shape)

/-- A job in front of an output: its sources with the mask of the retired ones, the target level as the manifest has it, and
the ids of the targets in key order, of which the first `tgtRetired` are retired. -/
structure RdelJob where
  sources : List TableRef
  srcRetired : Nat
  level : List TableRef
  tgt : List Nat
  tgtRetired : Nat
  outLo : Bytes
  bottommost : Bool
  oldestSnapshot : Nat
  deriving DecidableEq, Repr

namespace RdelJob

/-- The targets that are live. -/
def targets (j : RdelJob) : TargetView := ⟨j.level, j.tgt.drop j.tgtRetired⟩

def merger (j : RdelJob) : RdelMerger :=
  RdelMerger.new j.sources j.srcRetired (!j.targets.ids.isEmpty) j.bottommost j.oldestSnapshot

/-- The section of an output that ends in front of `hi`, before the drop rule. -/
def sealRdels (readFuel fuel : Nat) (j : RdelJob) (hi : Option Bytes) : Reads Error (List OwnedRdel) := do
  let merged ← j.merger.mergeAll sh j.targets readFuel fuel
  return merged.filterMap (Span.clip (some j.outLo) hi)

/-- Settles an input against the last key `k` of an output: `none` when it retires. -/
def settle (k : Bytes) (t : TableRef) : Option TableRef :=
  if t.lastKey ≤ k then none
  else if t.firstKey ≤ k then
    match KeyBound.successor sh k with
    | some first => some { t with firstKey := first }
    | none => some t
  else some t

/-- The bits of the live sources, from source `i` on, that retire. -/
def retiredSources (k : Bytes) (mask : Nat) : Nat → List TableRef → Nat
  | _, [] => 0
  | i, t :: ts => (if !bit mask i && decide (t.lastKey ≤ k) then 2 ^ i else 0) ||| retiredSources k mask (i + 1) ts

/-- The loop over the live targets, from target `i` on: one behind the last that retires. -/
def retiredTargets (retires : Nat → Bool) : Nat → Nat → List Nat → Nat
  | _, done, [] => done
  | i, done, id :: ids => retiredTargets retires (i + 1) (if retires id then i + 1 else done) ids

/-- Whether target `id` retires in a commit at `k`. -/
def retires (k : Bytes) (j : RdelJob) (id : Nat) : Bool := (j.level.find? (·.id = id)).any fun t => decide (t.lastKey ≤ k)

/-- Commits the output `out`, which is not the last one. -/
def commit (j : RdelJob) (out : TableRef) : Except Error RdelJob :=
  let live := j.targets.ids
  if live.any fun id => (j.level.find? (·.id = id)).isNone then .error .corruptManifest
  else
    .ok { j with
      srcRetired := j.srcRetired ||| retiredSources out.lastKey j.srcRetired 0 j.sources
      level := Manifest.insertRef 1 out (j.level.filterMap fun t => if t.id ∈ live then settle sh out.lastKey t else some t)
      tgtRetired := retiredTargets (retires out.lastKey j) j.tgtRetired j.tgtRetired live
      outLo := (KeyBound.successor sh out.lastKey).getD j.outLo }

/-- The outputs of the job, each with the bound it ends in front of: one for each of `outs`, and the last. -/
def outputs : RdelJob → List TableRef → Except Error (List (RdelJob × Option Bytes))
  | j, [] => .ok [(j, none)]
  | j, out :: outs => do
    let next ← j.commit sh out
    let rest ← outputs next outs
    return (j, KeyBound.successor sh out.lastKey) :: rest

/-! ### The inputs -/

/-- The tombstones of a table above its live bound; `sec` gives the section of each table id. -/
def live (sec : Nat → List (List RdelEntry)) (t : TableRef) : List OwnedRdel :=
  (sec t.id).flatten.filterMap (raise t.firstKey)

def liveTargets (j : RdelJob) : List TableRef := j.targets.ids.filterMap fun id => j.level.find? (·.id = id)

/-- What the live inputs hold above their live bounds. -/
def inputs (sec : Nat → List (List RdelEntry)) (j : RdelJob) : List OwnedRdel :=
  (j.sources.zipIdx.flatMap fun x => if bit j.srcRetired x.2 then [] else live sec x.1) ++ j.liveTargets.flatMap (live sec)

/-- A live input. -/
def Input (j : RdelJob) (t : TableRef) : Prop :=
  (∃ i, j.sources[i]? = some t ∧ bit j.srcRetired i = false) ∨ t ∈ j.liveTargets

variable {sh}

/-- The tombstones `rdels` are a section of the table `t`: in start order, not empty, and over no key behind the last one. -/
structure SectionOf (sh : Shape) (t : TableRef) (rdels : List RdelEntry) : Prop where
  sorted : rdels.Pairwise (·.start ≤ ·.start)
  proper : ∀ e ∈ rdels, e.start < e.stop
  below : ∀ e ∈ rdels, ∀ x : Bytes, x.length ≤ sh.KEY_MAX → e.start ≤ x → x < e.stop → x ≤ t.lastKey
  bounds : t.firstKey ≤ t.lastKey
  last_le : t.lastKey.length ≤ sh.KEY_MAX

/-- A job that can start an output: its live targets are in the level, one behind the other. -/
structure Ready (sh : Shape) (sec : Nat → List (List RdelEntry)) (j : RdelJob) : Prop where
  sources_lt : j.sources.length < COMPACTION_KMAX
  input : ∀ t, j.Input t → SectionOf sh t (sec t.id).flatten
  found : ∀ id ∈ j.targets.ids, (j.level.find? (·.id = id)).isSome
  apart : j.liveTargets.Pairwise fun a b => a.lastKey < b.firstKey

/-- The sections of the live inputs lie on the device. -/
def OnDevice (sh : Shape) (blocks : Nat → Bytes) (sec : Nat → List (List RdelEntry)) (j : RdelJob) : Prop :=
  ∀ t, j.Input t → ∃ base, t.rdelFirst = some base ∧ t.rdelBlocks = (sec t.id).length ∧ RdelsOn sh blocks base (sec t.id)

/-- The last keys of the outputs before the last one ascend from `lo` on: the job splits in front of a further key, and
takes a new id for each of them. -/
inductive Cuts (sh : Shape) (tgt : List Nat) : Bytes → List TableRef → Prop
  | last {lo : Bytes} : Cuts sh tgt lo []
  | split {lo next : Bytes} {out : TableRef} {outs : List TableRef} : out.id ∉ tgt → lo ≤ out.lastKey → out.lastKey ≠ [] →
    out.lastKey.length ≤ sh.KEY_MAX → out.lastKey < next → next.length ≤ sh.KEY_MAX →
    (∀ hi, KeyBound.successor sh out.lastKey = some hi → Cuts sh tgt hi outs) → Cuts sh tgt lo (out :: outs)

/-- A threshold of a read: the oldest snapshot or a newer one, or a view of all inputs. -/
def Sees (sec : Nat → List (List RdelEntry)) (j : RdelJob) (t : Nat) : Prop :=
  j.oldestSnapshot ≤ t ∨ ∀ s ∈ j.inputs sec, s.seq ≤ t

variable {sec : Nat → List (List RdelEntry)} {j : RdelJob} {t t' : TableRef} {k hi x : Bytes} {e : RdelEntry} {s : OwnedRdel}

theorem raise_eq_some {lower : Bytes} :
    raise lower e = some s ↔ lower < e.stop ∧ s = ⟨max lower e.start, e.stop, e.seq⟩ := by
  have hmax : (if e.start < lower then lower else e.start) = max lower e.start := by
    by_cases hlt : e.start < lower
    · rw [if_pos hlt, max_eq_left (le_of_lt hlt)]
    · rw [if_neg hlt, max_eq_right (not_lt.mp hlt)]
  unfold raise
  rw [hmax]
  by_cases hle : e.stop ≤ lower
  · rw [if_pos hle]
    simp [not_lt.mpr hle]
  · rw [if_neg hle]
    simp [not_le.mp hle, eq_comm]

theorem mem_live : s ∈ live sec t ↔
    ∃ e ∈ (sec t.id).flatten, t.firstKey < e.stop ∧ s = ⟨max t.firstKey e.start, e.stop, e.seq⟩ := by
  unfold live
  rw [List.mem_filterMap]
  simp only [raise_eq_some]

theorem mem_inputs : s ∈ j.inputs sec ↔ ∃ t, j.Input t ∧ s ∈ live sec t := by
  unfold inputs Input
  rw [List.mem_append, List.mem_flatMap, List.mem_flatMap]
  constructor
  · rintro (⟨⟨t, i⟩, hmem, hs⟩ | ⟨t, ht, hs⟩)
    · have hi := List.mk_mem_zipIdx_iff_getElem?.mp hmem
      cases hb : bit j.srcRetired i with
      | true =>
        rw [if_pos hb] at hs
        cases hs
      | false =>
        rw [if_neg (by simp [hb])] at hs
        exact ⟨t, Or.inl ⟨i, hi, hb⟩, hs⟩
    · exact ⟨t, Or.inr ht, hs⟩
  · rintro ⟨t, ⟨i, hi, hb⟩ | ht, hs⟩
    · refine Or.inl ⟨(t, i), List.mk_mem_zipIdx_iff_getElem?.mpr hi, ?_⟩
      rw [if_neg (by simp [hb])]
      exact hs
    · exact Or.inr ⟨t, ht, hs⟩

/-- A stamp over a key: one of a tombstone around it of a table whose live bound is not above it. -/
theorem covers_inputs {m : Nat} : (∃ s ∈ j.inputs sec, s.Covers x ∧ s.seq = m) ↔
    ∃ t, j.Input t ∧ t.firstKey ≤ x ∧ ∃ e ∈ (sec t.id).flatten, (e.start ≤ x ∧ x < e.stop) ∧ e.seq = m := by
  constructor
  · rintro ⟨s, hs, hx, rfl⟩
    obtain ⟨t, ht, hmem⟩ := mem_inputs.mp hs
    obtain ⟨e, he, -, rfl⟩ := mem_live.mp hmem
    obtain ⟨h1, h2⟩ := max_le_iff.mp hx.1
    exact ⟨t, ht, h1, e, he, ⟨h2, hx.2⟩, rfl⟩
  · rintro ⟨t, ht, hle, e, he, ⟨h1, h2⟩, rfl⟩
    refine ⟨⟨max t.firstKey e.start, e.stop, e.seq⟩, mem_inputs.mpr ⟨t, ht, ?_⟩, ⟨max_le hle h1, h2⟩, rfl⟩
    exact mem_live.mpr ⟨e, he, lt_of_le_of_lt hle h2, rfl⟩

/-! ### The merge of an output -/

theorem sorted_live (h : SectionOf sh t (sec t.id).flatten) : Span.Sorted (live sec t) := by
  unfold Span.Sorted live
  rw [List.pairwise_filterMap]
  refine h.sorted.imp ?_
  intro a b hab a' ha b' hb
  obtain ⟨-, rfl⟩ := raise_eq_some.mp ha
  obtain ⟨-, rfl⟩ := raise_eq_some.mp hb
  exact max_le_max le_rfl hab

/-- The tombstones of a table start between its bounds. -/
theorem start_mem_live (h : SectionOf sh t (sec t.id).flatten) (hwf : ∀ e ∈ (sec t.id).flatten, RdelWF sh e)
    (hs : s ∈ live sec t) : t.firstKey ≤ s.start ∧ s.start ≤ t.lastKey := by
  obtain ⟨e, he, hlt, rfl⟩ := mem_live.mp hs
  have hstart := h.below e he e.start (hwf e he).start_le le_rfl (h.proper e he)
  exact ⟨le_max_left _ _, max_le h.bounds hstart⟩

/-- One table behind the other, their tombstones are in start order. -/
theorem sorted_flatMap_live {ts : List TableRef} (h : ∀ t ∈ ts, SectionOf sh t (sec t.id).flatten)
    (hwf : ∀ t ∈ ts, ∀ e ∈ (sec t.id).flatten, RdelWF sh e) (hap : ts.Pairwise fun a b => a.lastKey < b.firstKey) :
    Span.Sorted (ts.flatMap (live sec)) := by
  induction ts with
  | nil => exact List.Pairwise.nil
  | cons t ts ih =>
    obtain ⟨hhead, htail⟩ := List.pairwise_cons.mp hap
    rw [List.flatMap_cons]
    unfold Span.Sorted
    rw [List.pairwise_append]
    refine ⟨sorted_live (h t (by simp)), ih (fun t ht => h t (by simp [ht])) (fun t ht => hwf t (by simp [ht])) htail, ?_⟩
    intro s hs s' hs'
    obtain ⟨t', ht', hs'⟩ := List.mem_flatMap.mp hs'
    have h1 := (start_mem_live (h t (by simp)) (hwf t (by simp)) hs).2
    have h2 := (start_mem_live (h t' (by simp [ht'])) (hwf t' (by simp [ht'])) hs').1
    exact le_trans h1 (le_trans (le_of_lt (hhead t' ht')) h2)

/-- What the heads of the sources and the head of the targets have to yield. -/
def streams (sec : Nat → List (List RdelEntry)) (j : RdelJob) : List (List OwnedRdel) :=
  (j.sources.zipIdx.map fun x => if bit j.srcRetired x.2 then [] else live sec x.1) ++
    if !j.targets.ids.isEmpty then [j.liveTargets.flatMap (live sec)] else []

theorem flatten_streams (sec : Nat → List (List RdelEntry)) (j : RdelJob) : (j.streams sec).flatten = j.inputs sec := by
  unfold streams inputs
  rw [List.flatten_append, ← List.flatMap_def]
  congr 1
  cases h : j.targets.ids.isEmpty with
  | true =>
    have hnil : j.liveTargets = [] := by
      unfold liveTargets
      rw [List.isEmpty_iff.mp h]
      rfl
    rw [hnil]
    rfl
  | false => simp

theorem on_nil (blocks : Nat → Bytes) : RdelsOn sh blocks 0 [] :=
  ⟨fun b hb => absurd hb (by simp), by simp, fun i b hb => absurd hb (by simp)⟩

/-- A head of nothing. -/
theorem left_empty (blocks : Nat → Bytes) (targets : TargetView) :
    RdelHead.Left sh blocks targets (RdelHead.new 0 0 []) [] :=
  ⟨0, [], [], ⟨on_nil blocks, rfl, rfl, Or.inl rfl, rfl⟩, rfl, rfl⟩

/-- The head of a live source. -/
theorem left_source {blocks : Nat → Bytes} {base : Nat} (targets : TargetView) (hfirst : t.rdelFirst = some base)
    (hcount : t.rdelBlocks = (sec t.id).length) (hon : RdelsOn sh blocks base (sec t.id)) :
    RdelHead.Left sh blocks targets (RdelHead.new (t.rdelFirst.getD U64_MAX) t.rdelBlocks t.firstKey) (live sec t) := by
  have hall : unread 0 (sec t.id) = (sec t.id).flatten := by
    cases sec t.id <;> simp [unread]
  refine ⟨0, sec t.id, [], ⟨?_, hcount.trans (Nat.zero_add _).symm, rfl, Or.inl rfl, rfl⟩, rfl, ?_⟩
  · rw [hfirst]
    exact hon
  · rw [hall, List.append_nil]
    rfl

/-- The head of the targets has them all to come. -/
theorem coming_targets {blocks : Nat → Bytes} {v : TargetView} (hfound : ∀ id ∈ v.ids, (v.level.find? (·.id = id)).isSome)
    (hon : ∀ t ∈ v.ids.filterMap fun id => v.level.find? (·.id = id),
      ∃ base, t.rdelFirst = some base ∧ t.rdelBlocks = (sec t.id).length ∧ RdelsOn sh blocks base (sec t.id)) :
    RdelHead.Coming sh blocks v 0 ((v.ids.filterMap fun id => v.level.find? (·.id = id)).flatMap (live sec)) := by
  -- The induction is on the ids left, behind those of `i` sections.
  suffices h : ∀ ids i, v.ids.drop i = ids →
      RdelHead.Coming sh blocks v i ((ids.filterMap fun id => v.level.find? (·.id = id)).flatMap (live sec)) by
    exact h v.ids 0 rfl
  intro ids
  induction ids with
  | nil =>
    intro i hi
    apply RdelHead.Coming.done
    unfold TargetView.sectionOf
    rw [List.getElem?_eq_none (List.drop_eq_nil_iff.mp hi)]
  | cons id ids ih =>
    intro i hi
    have hmem : id ∈ v.ids := List.mem_of_mem_drop (i := i) (hi ▸ List.mem_cons_self)
    have hget : v.ids[i]? = some id := by
      have := congrArg (fun l => l[0]?) hi
      simpa using this
    have hdrop : v.ids.drop (i + 1) = ids := by
      have := congrArg List.tail hi
      simpa using this
    obtain ⟨t, ht⟩ := Option.isSome_iff_exists.mp (hfound id hmem)
    have hid : t.id = id := by simpa using List.find?_some ht
    obtain ⟨base, hfirst, hcount, hsec⟩ := hon t (List.mem_filterMap.mpr ⟨id, hmem, ht⟩)
    have hcons : (id :: ids).filterMap (fun id => v.level.find? (·.id = id)) =
        t :: ids.filterMap fun id => v.level.find? (·.id = id) := List.filterMap_cons_some ht
    rw [hcons, List.flatMap_cons]
    refine RdelHead.Coming.open_ ?_ hsec (ih (i + 1) hdrop)
    unfold TargetView.sectionOf
    rw [hget]
    dsimp only
    rw [ht]
    dsimp only
    rw [hfirst, hcount]

theorem wf_of_on {blocks : Nat → Bytes} (hon : OnDevice sh blocks sec j) (ht : j.Input t) :
    ∀ e ∈ (sec t.id).flatten, RdelWF sh e := by
  obtain ⟨base, -, -, hsec⟩ := hon t ht
  intro e he
  obtain ⟨b, hb, heb⟩ := List.mem_flatten.mp he
  exact (hsec.block b hb).wf e heb

/-- The merger of an output, before its first call. -/
theorem holds_merger {blocks : Nat → Bytes} (h : Ready sh sec j) (hon : OnDevice sh blocks sec j) :
    RdelMerger.Holds sh blocks j.targets j.oldestSnapshot (j.inputs sec) j.merger (j.streams sec) [] := by
  have htake : j.sources.take (COMPACTION_KMAX - 1) = j.sources := List.take_of_length_le (by have := h.sources_lt; omega)
  constructor
  · unfold merger RdelMerger.new streams
    dsimp only
    rw [htake, List.mapIdx_eq_zipIdx_map]
    refine List.rel_append ?_ ?_
    · rw [List.forall₂_map_left_iff, List.forall₂_map_right_iff, List.forall₂_same]
      intro x hx
      have hi := List.mk_mem_zipIdx_iff_getElem?.mp hx
      obtain ⟨t, i⟩ := x
      dsimp only
      cases hb : bit j.srcRetired i with
      | true => exact left_empty blocks j.targets
      | false =>
        obtain ⟨base, hfirst, hcount, hsec⟩ := hon t (Or.inl ⟨i, hi, hb⟩)
        exact left_source j.targets hfirst hcount hsec
    · cases j.targets.ids.isEmpty with
      | true => exact .nil
      | false =>
        refine .cons ⟨0, [], _, ⟨on_nil blocks, rfl, rfl, Or.inl rfl, rfl⟩, ?_, rfl⟩ .nil
        exact coming_targets h.found fun t ht => hon t (Or.inr ht)
  · rw [← flatten_streams]
    apply Span.Merging.init
    intro l hl
    unfold streams at hl
    rcases List.mem_append.mp hl with hl | hl
    · obtain ⟨x, hx, rfl⟩ := List.mem_map.mp hl
      have hi := List.mk_mem_zipIdx_iff_getElem?.mp hx
      cases hb : bit j.srcRetired x.2 with
      | true => exact List.Pairwise.nil
      | false => exact sorted_live (h.input x.1 (Or.inl ⟨x.2, hi, hb⟩))
    · split at hl
      · rw [List.mem_singleton.mp hl]
        exact sorted_flatMap_live (fun t ht => h.input t (Or.inr ht)) (fun t ht => wf_of_on hon (Or.inr ht)) h.apart
      · cases hl
  · intro p hp
    cases hp
  · rfl

/-- The merge of an output ends, in start order, and answers every read like the live inputs. -/
theorem merger_spec {blocks : Nat → Bytes} (h : Ready sh sec j) (hon : OnDevice sh blocks sec j) : ∃ n merged,
    (∀ readFuel ≥ n, ∀ fuel ≥ n, (j.merger.mergeAll sh j.targets readFuel fuel).eval blocks = .ok merged) ∧
      Span.Sorted merged ∧ ∀ T, j.Sees sec T → ∀ x, Span.cover T x merged = Span.cover T x (j.inputs sec) := by
  obtain ⟨n, m, rest, merged, hm, hrest, hpend, hfuel⟩ := RdelMerger.mergeAll_spec (holds_merger h hon)
  have hmerging := hm.merging
  rw [hpend, List.nil_append] at hmerging
  have hsorted := hmerging.sorted
  rw [Option.toList_none, List.append_nil] at hsorted
  refine ⟨n, merged, hfuel, hsorted, fun T hT x => ?_⟩
  rcases hT with hT | hT
  · exact hmerging.cover_out hrest hT
  · -- The stamps are all visible, so a greater threshold does not change the answer.
    have hstamps : ∀ p ∈ merged, p.seq ≤ T := by
      intro p hp
      obtain ⟨a, ha, heq⟩ := hmerging.stamps p (by simp [hp])
      exact heq ▸ hT a ha
    have hle := le_max_left T j.oldestSnapshot
    rw [Span.cover_eq_of_le hstamps hle, Span.cover_eq_of_le hT hle]
    exact hmerging.cover_out hrest (le_max_right T j.oldestSnapshot)

/-! ### A commit -/

/-- What a commit at `k`, behind which the next output starts at `hi`, leaves of an input. -/
structure Settled (sh : Shape) (k hi : Bytes) (t t' : TableRef) : Prop where
  id_eq : t'.id = t.id
  last_eq : t'.lastKey = t.lastKey
  goes_on : k < t.lastKey
  first_le : t.firstKey ≤ t'.firstKey
  bounds : t.firstKey ≤ t.lastKey → t'.firstKey ≤ t.lastKey
  same : ∀ x : Bytes, x.length ≤ sh.KEY_MAX → hi ≤ x → (t'.firstKey ≤ x ↔ t.firstKey ≤ x)

theorem Settled.refl (h : k < t.lastKey) : Settled sh k hi t t := ⟨rfl, rfl, h, le_rfl, id, fun _ _ _ => Iff.rfl⟩

theorem settle_eq_none (h : t.lastKey ≤ k) : settle sh k t = none := by
  unfold settle
  rw [if_pos h]

theorem settle_spec (hk : k.length ≤ sh.KEY_MAX) (hs : KeyBound.successor sh k = some hi)
    (hlast : t.lastKey.length ≤ sh.KEY_MAX) (hlt : k < t.lastKey) :
    ∃ t', settle sh k t = some t' ∧ Settled sh k hi t t' := by
  have hnext : k < hi := (KeyBound.successor_some hk hs hk).mp le_rfl
  unfold settle
  rw [if_neg (not_le.mpr hlt), hs]
  by_cases hfirst : t.firstKey ≤ k
  · rw [if_pos hfirst]
    refine ⟨{ t with firstKey := hi }, rfl, rfl, rfl, hlt, ?_, fun _ => ?_, fun x hx hle => ?_⟩
    · exact le_trans hfirst (le_of_lt hnext)
    · exact not_lt.mp fun hc => not_lt.mpr ((KeyBound.successor_some hk hs hlast).mpr hc) hlt
    · exact ⟨fun _ => le_trans hfirst (le_trans (le_of_lt hnext) hle), fun _ => hle⟩
  · rw [if_neg hfirst]
    exact ⟨t, rfl, .refl hlt⟩

theorem id_of_settle (h : settle sh k t = some t') : t'.id = t.id := by
  unfold settle at h
  split_ifs at h
  · split at h <;> · obtain rfl := Option.some.inj h; rfl
  · obtain rfl := Option.some.inj h
    rfl

/-- A section stays one of the table that a commit leaves. -/
theorem Settled.sectionOf {rdels : List RdelEntry} (h : Settled sh k hi t t') (hsec : SectionOf sh t rdels) :
    SectionOf sh t' rdels where
  sorted := hsec.sorted
  proper := hsec.proper
  below := by
    rw [h.last_eq]
    exact hsec.below
  bounds := by
    rw [h.last_eq]
    exact h.bounds hsec.bounds
  last_le := by
    rw [h.last_eq]
    exact hsec.last_le

theorem testBit_retiredSources_lt (k : Bytes) (mask : Nat) (ts : List TableRef) {i n : Nat} (hn : n < i) :
    (retiredSources k mask i ts).testBit n = false := by
  induction ts generalizing i with
  | nil => exact Nat.zero_testBit n
  | cons t ts ih =>
    rw [retiredSources, Nat.testBit_or, ih (by omega), Bool.or_false]
    split
    · rw [Nat.testBit_two_pow]
      exact decide_eq_false (by omega)
    · exact Nat.zero_testBit n

/-- Exactly the live sources that end at or below `k` retire. -/
theorem testBit_retiredSources (k : Bytes) (mask : Nat) {ts : List TableRef} {n : Nat} (i : Nat) (ht : ts[n]? = some t) :
    (retiredSources k mask i ts).testBit (i + n) = (!bit mask (i + n) && decide (t.lastKey ≤ k)) := by
  induction ts generalizing i n with
  | nil => cases ht
  | cons a ts ih =>
    rw [retiredSources, Nat.testBit_or]
    cases n with
    | zero =>
      obtain rfl := Option.some.inj ht
      rw [Nat.add_zero, testBit_retiredSources_lt k mask ts (Nat.lt_succ_self i), Bool.or_false]
      split
      · rename_i hb
        rw [Nat.testBit_two_pow, hb]
        exact decide_eq_true rfl
      · rename_i hb
        rw [Nat.zero_testBit, Bool.eq_false_of_not_eq_true hb]
    | succ n =>
      rw [show i + (n + 1) = i + 1 + n by omega, ih (i + 1) (by simpa using ht)]
      have hzero : (if !bit mask i && decide (a.lastKey ≤ k) then 2 ^ i else 0).testBit (i + 1 + n) = false := by
        split
        · rw [Nat.testBit_two_pow]
          exact decide_eq_false (by omega)
        · exact Nat.zero_testBit _
      rw [hzero, Bool.false_or]

theorem bit_retiredSources {mask n : Nat} {ts : List TableRef} (hn : n < 64) (ht : ts[n]? = some t) :
    bit (mask ||| retiredSources k mask 0 ts) n = (bit mask n || decide (t.lastKey ≤ k)) := by
  have h := testBit_retiredSources k mask 0 ht
  rw [Nat.zero_add] at h
  unfold bit at h ⊢
  rw [Nat.testBit_or, h, decide_eq_true hn]
  cases mask.testBit n <;> simp

theorem retiredTargets_none {retires : Nat → Bool} {ids : List Nat} (h : ∀ id ∈ ids, retires id = false) (i done : Nat) :
    retiredTargets retires i done ids = done := by
  induction ids generalizing i with
  | nil => rfl
  | cons id ids ih =>
    rw [retiredTargets, h id (by simp), if_neg Bool.false_ne_true]
    exact ih (fun a ha => h a (by simp [ha])) (i + 1)

/-- The targets that retire are the first ones, so those behind them go on. -/
theorem drop_retiredTargets {retires : Nat → Bool} {tgt ids : List Nat} {i : Nat} (hids : tgt.drop i = ids)
    (h : ids.Pairwise fun a b => retires b = true → retires a = true) :
    tgt.drop (retiredTargets retires i i ids) = ids.filter (!retires ·) := by
  induction ids generalizing i with
  | nil => exact hids
  | cons id ids ih =>
    obtain ⟨hhead, htail⟩ := List.pairwise_cons.mp h
    have hdrop : tgt.drop (i + 1) = ids := by
      have := congrArg List.tail hids
      simpa using this
    rw [retiredTargets]
    cases hr : retires id with
    | true =>
      rw [if_pos rfl, List.filter_cons_of_neg (by simp [hr])]
      exact ih hdrop htail
    | false =>
      have hnone : ∀ a ∈ ids, retires a = false := by
        intro a ha
        cases hra : retires a with
        | true => exact absurd (hhead a ha hra) (by simp [hr])
        | false => rfl
      rw [if_neg Bool.false_ne_true, retiredTargets_none hnone, List.filter_eq_self.mpr]
      · exact hids
      · intro a ha
        rcases List.mem_cons.mp ha with rfl | ha
        · simp [hr]
        · simp [hnone a ha]

/-- Adding a ref leaves the others to be found. -/
theorem find?_insertRef {out : TableRef} {id : Nat} (level : Nat) (ts : List TableRef) (hne : out.id ≠ id) :
    (Manifest.insertRef level out ts).find? (·.id = id) = ts.find? (·.id = id) := by
  have hcons : ∀ l : List TableRef, (out :: l).find? (·.id = id) = l.find? (·.id = id) :=
    fun l => List.find?_cons_of_neg (by simpa using hne)
  unfold Manifest.insertRef
  split
  · rw [List.find?_append, hcons, List.find?_nil, Option.or_none]
  · dsimp only
    rw [List.find?_append, hcons, ← List.find?_append, List.take_append_drop]

/-- A map that keeps the ids keeps a ref where it is found. -/
theorem find?_filterMap {f : TableRef → Option TableRef} (hf : ∀ a a', f a = some a' → a'.id = a.id) {ts : List TableRef}
    {id : Nat} (ht : ts.find? (·.id = id) = some t) (ht' : f t = some t') :
    (ts.filterMap f).find? (·.id = id) = some t' := by
  induction ts with
  | nil => cases ht
  | cons a ts ih =>
    by_cases ha : a.id = id
    · rw [List.find?_cons_of_pos (by simpa using ha)] at ht
      obtain rfl := Option.some.inj ht
      rw [List.filterMap_cons_some ht']
      exact List.find?_cons_of_pos (by simpa using (hf _ _ ht').trans ha)
    · rw [List.find?_cons_of_neg (by simpa using ha)] at ht
      cases hfa : f a with
      | none =>
        rw [List.filterMap_cons_none hfa]
        exact ih ht
      | some a' =>
        rw [List.filterMap_cons_some hfa, List.find?_cons_of_neg (by simpa [hf a a' hfa] using ha)]
        exact ih ht

/-- `j'` is `j` behind a commit at `k`, in front of an output that starts at `hi`. -/
structure Committed (sh : Shape) (k hi : Bytes) (j j' : RdelJob) : Prop where
  outLo : j'.outLo = hi
  tgt : j'.tgt = j.tgt
  sources : j'.sources = j.sources
  oldest : j'.oldestSnapshot = j.oldestSnapshot
  retired : ∀ i t, j.sources[i]? = some t → bit j'.srcRetired i = (bit j.srcRetired i || decide (t.lastKey ≤ k))
  ids : j'.targets.ids = j.targets.ids.filter (!retires k j ·)
  find : ∀ id ∈ j.targets.ids, ∀ t t', j.level.find? (·.id = id) = some t → settle sh k t = some t' →
    j'.level.find? (·.id = id) = some t'

theorem commit_spec {out : TableRef} (h : Ready sh sec j) (hfresh : out.id ∉ j.tgt)
    (hs : KeyBound.successor sh out.lastKey = some hi) :
    ∃ j', j.commit sh out = .ok j' ∧ Committed sh out.lastKey hi j j' := by
  have hnone : ¬(j.targets.ids.any fun id => (j.level.find? (·.id = id)).isNone) = true := by
    rw [List.any_eq_true]
    rintro ⟨id, hid, hc⟩
    have hf := h.found id hid
    rw [Option.isNone_iff_eq_none.mp hc] at hf
    cases hf
  unfold commit
  dsimp only
  rw [if_neg hnone]
  refine ⟨_, rfl, by rw [hs]; rfl, rfl, rfl, rfl, ?_, ?_, ?_⟩
  · intro i t ht
    have hlt := (List.getElem?_eq_some_iff.mp ht).1
    have hmax := h.sources_lt
    unfold COMPACTION_KMAX at hmax
    exact bit_retiredSources (by omega) ht
  · -- A target in front of one that retires ends before it starts.
    refine drop_retiredTargets rfl ?_
    have hap := h.apart
    unfold liveTargets at hap
    rw [List.pairwise_filterMap] at hap
    refine hap.imp_of_mem ?_
    intro a b ha hb hab hrb
    obtain ⟨ta, hta⟩ := Option.isSome_iff_exists.mp (h.found a ha)
    obtain ⟨tb, htb⟩ := Option.isSome_iff_exists.mp (h.found b hb)
    unfold retires at hrb ⊢
    rw [htb, Option.any_some, decide_eq_true_eq] at hrb
    rw [hta, Option.any_some, decide_eq_true_eq]
    have hbounds := (h.input tb (Or.inr (List.mem_filterMap.mpr ⟨b, hb, htb⟩))).bounds
    exact le_trans (le_of_lt (hab ta hta tb htb)) (le_trans hbounds hrb)
  · intro id hid t t' ht ht'
    have hne : out.id ≠ id := fun hc => hfresh (List.mem_of_mem_drop (hc ▸ hid))
    have hid' : t.id = id := by simpa using List.find?_some ht
    refine (find?_insertRef 1 _ hne).trans (find?_filterMap ?_ ht ?_)
    · intro a a' ha
      split at ha
      · exact id_of_settle ha
      · rw [Option.some.inj ha]
    · rw [if_pos (hid' ▸ hid)]
      exact ht'

theorem mem_liveTargets : t ∈ j.liveTargets ↔ ∃ id ∈ j.targets.ids, j.level.find? (·.id = id) = some t := List.mem_filterMap

namespace Committed

variable {j' : RdelJob} (hc : Committed sh k hi j j') (h : Ready sh sec j) (hk : k.length ≤ sh.KEY_MAX)
  (hs : KeyBound.successor sh k = some hi)

include hc h hk hs in
theorem liveTargets_eq : j'.liveTargets = j.liveTargets.filterMap (settle sh k) := by
  unfold liveTargets
  rw [hc.ids, List.filterMap_filter, List.filterMap_filterMap]
  apply List.filterMap_congr
  intro id hid
  obtain ⟨t, ht⟩ := Option.isSome_iff_exists.mp (h.found id hid)
  have hlast := (h.input t (Or.inr (mem_liveTargets.mpr ⟨id, hid, ht⟩))).last_le
  rw [ht, Option.bind_some]
  by_cases hle : t.lastKey ≤ k
  · have hr : retires k j id = true := by
      unfold retires
      rw [ht]
      exact decide_eq_true hle
    rw [hr, settle_eq_none hle]
    rfl
  · have hr : retires k j id = false := by
      unfold retires
      rw [ht]
      exact decide_eq_false hle
    obtain ⟨t', ht', -⟩ := settle_spec hk hs hlast (not_le.mp hle)
    rw [hr, ht', hc.find id hid t t' ht ht']
    rfl

include hc h hk hs in
/-- The inputs of the next output are those of this one, settled. -/
theorem input_settled (ht' : j'.Input t') : ∃ t, j.Input t ∧ Settled sh k hi t t' := by
  rcases ht' with ⟨i, hi, hb⟩ | ht'
  · rw [hc.sources] at hi
    rw [hc.retired i t' hi, Bool.or_eq_false_iff] at hb
    exact ⟨t', Or.inl ⟨i, hi, hb.1⟩, .refl (not_le.mp (of_decide_eq_false hb.2))⟩
  · rw [hc.liveTargets_eq h hk hs] at ht'
    obtain ⟨t, ht, hset⟩ := List.mem_filterMap.mp ht'
    have hlt : k < t.lastKey := not_le.mp fun hle => by
      rw [settle_eq_none hle] at hset
      cases hset
    obtain ⟨t'', ht'', hsettled⟩ := settle_spec hk hs (h.input t (Or.inr ht)).last_le hlt
    obtain rfl := Option.some.inj (ht''.symm.trans hset)
    exact ⟨t, Or.inr ht, hsettled⟩

include hc h hk hs in
/-- An input that does not end at or below `k` goes on. -/
theorem input_goes_on (ht : j.Input t) (hlt : k < t.lastKey) : ∃ t', j'.Input t' ∧ Settled sh k hi t t' := by
  rcases ht with ⟨i, hi, hb⟩ | ht
  · refine ⟨t, Or.inl ⟨i, by rw [hc.sources]; exact hi, ?_⟩, .refl hlt⟩
    rw [hc.retired i t hi, hb, Bool.false_or]
    exact decide_eq_false (not_le.mpr hlt)
  · obtain ⟨t', ht', hsettled⟩ := settle_spec hk hs (h.input t (Or.inr ht)).last_le hlt
    refine ⟨t', Or.inr ?_, hsettled⟩
    rw [hc.liveTargets_eq h hk hs]
    exact List.mem_filterMap.mpr ⟨t, ht, ht'⟩

include hc h hk hs in
theorem ready : Ready sh sec j' where
  sources_lt := by
    rw [hc.sources]
    exact h.sources_lt
  input t' ht' := by
    obtain ⟨t, ht, hset⟩ := hc.input_settled h hk hs ht'
    rw [hset.id_eq]
    exact hset.sectionOf (h.input t ht)
  found id hid := by
    rw [hc.ids, List.mem_filter] at hid
    obtain ⟨hid, hr⟩ := hid
    obtain ⟨t, ht⟩ := Option.isSome_iff_exists.mp (h.found id hid)
    have hlast := (h.input t (Or.inr (mem_liveTargets.mpr ⟨id, hid, ht⟩))).last_le
    have hlt : k < t.lastKey := by
      unfold retires at hr
      rw [ht] at hr
      simpa using hr
    obtain ⟨t', ht', -⟩ := settle_spec hk hs hlast hlt
    rw [hc.find id hid t t' ht ht']
    rfl
  apart := by
    rw [hc.liveTargets_eq h hk hs, List.pairwise_filterMap]
    refine h.apart.imp_of_mem ?_
    intro a b ha hb hab a' ha' b' hb'
    have hlt : k < a.lastKey := not_le.mp fun hle => by
      rw [settle_eq_none hle] at ha'
      cases ha'
    obtain ⟨a'', ha'', hseta⟩ := settle_spec hk hs (h.input a (Or.inr ha)).last_le hlt
    obtain rfl := Option.some.inj (ha''.symm.trans ha')
    have hltb : k < b.lastKey := lt_of_lt_of_le (hlt.trans hab) (h.input b (Or.inr hb)).bounds
    obtain ⟨b'', hb'', hsetb⟩ := settle_spec hk hs (h.input b (Or.inr hb)).last_le hltb
    obtain rfl := Option.some.inj (hb''.symm.trans hb')
    rw [hseta.last_eq]
    exact lt_of_lt_of_le hab hsetb.first_le

include hc h hk hs in
/-- Past the commit every read finds what it found before. -/
theorem cover_inputs (T : Nat) (hx : x.length ≤ sh.KEY_MAX) (hle : hi ≤ x) :
    Span.cover T x (j'.inputs sec) = Span.cover T x (j.inputs sec) := by
  have hlt : k < x := not_le.mp fun hc => not_lt.mpr hle ((KeyBound.successor_some hk hs hx).mp hc)
  apply Span.cover_eq_of_seqs
  intro m
  rw [covers_inputs, covers_inputs]
  constructor
  · rintro ⟨t', ht', hfirst, hex⟩
    obtain ⟨t, ht, hset⟩ := hc.input_settled h hk hs ht'
    rw [hset.id_eq] at hex
    exact ⟨t, ht, (hset.same x hx hle).mp hfirst, hex⟩
  · rintro ⟨t, ht, hfirst, e, he, hcov, hseq⟩
    -- A table with a tombstone around `x` goes on.
    have hgoes : k < t.lastKey := lt_of_lt_of_le hlt ((h.input t ht).below e he x hx hcov.1 hcov.2)
    obtain ⟨t', ht', hset⟩ := hc.input_goes_on h hk hs ht hgoes
    refine ⟨t', ht', (hset.same x hx hle).mpr hfirst, e, ?_, hcov, hseq⟩
    rw [hset.id_eq]
    exact he

include hc h hk hs in
/-- No stamp is new. -/
theorem seq_inputs {s : OwnedRdel} (hm : s ∈ j'.inputs sec) : ∃ s' ∈ j.inputs sec, s'.seq = s.seq := by
  obtain ⟨t', ht', hmem⟩ := mem_inputs.mp hm
  obtain ⟨e, he, hlt, rfl⟩ := mem_live.mp hmem
  obtain ⟨t, ht, hset⟩ := hc.input_settled h hk hs ht'
  rw [hset.id_eq] at he
  exact ⟨⟨max t.firstKey e.start, e.stop, e.seq⟩,
    mem_inputs.mpr ⟨t, ht, mem_live.mpr ⟨e, he, lt_of_le_of_lt hset.first_le hlt, rfl⟩⟩, rfl⟩

end Committed

/-! ### The outputs -/

/-- An output of the job `j₀`: past where it starts every read finds what it found in front of the job. -/
structure Follows (sh : Shape) (sec : Nat → List (List RdelEntry)) (j₀ j : RdelJob) : Prop where
  ready : Ready sh sec j
  oldest : j.oldestSnapshot = j₀.oldestSnapshot
  lo_le : j₀.outLo ≤ j.outLo
  cover : ∀ T, ∀ x : Bytes, x.length ≤ sh.KEY_MAX → j.outLo ≤ x →
    Span.cover T x (j.inputs sec) = Span.cover T x (j₀.inputs sec)
  seqs : ∀ s ∈ j.inputs sec, ∃ s' ∈ j₀.inputs sec, s'.seq = s.seq

theorem Follows.refl (h : Ready sh sec j) : Follows sh sec j j :=
  ⟨h, rfl, le_rfl, fun _ _ _ _ => rfl, fun s hs => ⟨s, hs, rfl⟩⟩

theorem Follows.trans {j₀ j₁ : RdelJob} (h₁ : Follows sh sec j₀ j₁) (h : Follows sh sec j₁ j) : Follows sh sec j₀ j where
  ready := h.ready
  oldest := h.oldest.trans h₁.oldest
  lo_le := le_trans h₁.lo_le h.lo_le
  cover T x hx hle := (h.cover T x hx hle).trans (h₁.cover T x hx (le_trans h.lo_le hle))
  seqs s hs := by
    obtain ⟨s₁, hs₁, heq₁⟩ := h.seqs s hs
    obtain ⟨s₀, hs₀, heq₀⟩ := h₁.seqs s₁ hs₁
    exact ⟨s₀, hs₀, heq₀.trans heq₁⟩

theorem Follows.sees {j₀ : RdelJob} {T : Nat} (h : Follows sh sec j₀ j) (hT : j₀.Sees sec T) : j.Sees sec T := by
  rcases hT with hT | hT
  · exact Or.inl (h.oldest ▸ hT)
  · refine Or.inr fun s hs => ?_
    obtain ⟨s', hs', heq⟩ := h.seqs s hs
    exact heq ▸ hT s' hs'

/-- The keys that an output owns. -/
def Owns (p : RdelJob × Option Bytes) (x : Bytes) : Prop := Span.Owns (some p.1.outLo) p.2 x

/-- The outputs follow the job, and between them they own every key once. -/
theorem outputs_spec {outs : List TableRef} {tgt : List Nat} {lo : Bytes} (hcuts : Cuts sh tgt lo outs) (h : Ready sh sec j)
    (ht : j.tgt = tgt) (hl : j.outLo = lo) : ∃ ps : List (RdelJob × Option Bytes), j.outputs sh outs = .ok ps ∧
      (∀ p ∈ ps, Follows sh sec j p.1) ∧
        ∀ x : Bytes, x.length ≤ sh.KEY_MAX → lo ≤ x → ∃! i : Nat, ∃ p, ps[i]? = some p ∧ Owns p x := by
  induction hcuts generalizing j with
  | last =>
    refine ⟨[(j, none)], rfl, ?_, fun x _ hle => ⟨0, ⟨(j, none), rfl, ?_⟩, ?_⟩⟩
    · intro p hp
      rw [List.mem_singleton.mp hp]
      exact .refl h
    · simpa [Owns, Span.Owns, hl] using hle
    · rintro i ⟨p, hp, -⟩
      have := (List.getElem?_eq_some_iff.mp hp).1
      simpa using this
  | @split lo next out outs hfresh hlo hne hk hnext hlen hrest ih =>
    obtain ⟨hi, hs⟩ : ∃ hi, KeyBound.successor sh out.lastKey = some hi := by
      cases hs : KeyBound.successor sh out.lastKey with
      | some hi => exact ⟨hi, rfl⟩
      | none =>
        rcases (KeyBound.successor_none hk).mp hs with hc | hc
        · exact absurd hc hne
        · exact absurd (hc ▸ hnext) (not_lt.mpr (KeyBound.le_replicate hlen))
    have hlt : out.lastKey < hi := (KeyBound.successor_some hk hs hk).mp le_rfl
    obtain ⟨j', hcommit, hc⟩ := commit_spec h (ht ▸ hfresh) hs
    obtain ⟨ps, hps, hfollows, howns⟩ := ih hi hs (hc.ready h hk hs) (hc.tgt.trans ht) hc.outLo
    have hstep : Follows sh sec j j' := by
      refine ⟨hc.ready h hk hs, hc.oldest, ?_, fun T x hx hle => ?_, fun s hs' => hc.seq_inputs h hk hs hs'⟩
      · rw [hl, hc.outLo]
        exact le_trans hlo (le_of_lt hlt)
      · exact hc.cover_inputs h hk hs T hx (hc.outLo ▸ hle)
    refine ⟨(j, some hi) :: ps, ?_, ?_, fun x hx hle => ?_⟩
    · rw [outputs, hcommit]
      show (outputs sh j' outs >>= _) = _
      rw [hps, hs]
      rfl
    · intro p hp
      rcases List.mem_cons.mp hp with rfl | hp
      · exact .refl h
      · exact hstep.trans (hfollows p hp)
    · by_cases hcut : x < hi
      · -- The outputs behind this one start at `hi` or past it.
        refine ⟨0, ⟨(j, some hi), rfl, ?_⟩, ?_⟩
        · simpa [Owns, Span.Owns, hl] using ⟨hle, hcut⟩
        · rintro i ⟨p, hp, hown⟩
          cases i with
          | zero => rfl
          | succ i =>
            have hmem := List.mem_of_getElem? (show ps[i]? = some p by simpa using hp)
            have hge : hi ≤ p.1.outLo := hc.outLo ▸ (hfollows p hmem).lo_le
            exact absurd (le_trans hge (hown.1 p.1.outLo rfl)) (not_le.mpr hcut)
      · obtain ⟨i, ⟨p, hp, hown⟩, huniq⟩ := howns x hx (not_lt.mp hcut)
        refine ⟨i + 1, ⟨p, by simpa using hp, hown⟩, ?_⟩
        rintro i' ⟨p', hp', hown'⟩
        cases i' with
        | zero =>
          obtain rfl := Option.some.inj hp'
          exact absurd (hown'.2 hi rfl) hcut
        | succ i' => rw [huniq i' ⟨p', by simpa using hp', hown'⟩]

/-- The section of the output `p` of the job `j₀`: the merge is in start order and answers every read like the live inputs,
and what is kept of it answers for the keys of the output like the inputs of the job, and covers no other key. -/
structure Keeps (sh : Shape) (sec : Nat → List (List RdelEntry)) (j₀ : RdelJob) (p : RdelJob × Option Bytes)
    (merged kept : List OwnedRdel) : Prop where
  sorted : Span.Sorted merged
  answers : ∀ T, p.1.Sees sec T → ∀ x, Span.cover T x merged = Span.cover T x (p.1.inputs sec)
  kept_sorted : Span.Sorted kept
  owned : ∀ T, j₀.Sees sec T → ∀ x : Bytes, x.length ≤ sh.KEY_MAX → Owns p x →
    Span.cover T x kept = Span.cover T x (j₀.inputs sec)
  others : ∀ x, ¬Owns p x → ∀ s ∈ kept, ¬s.Covers x

/-- Merged range tombstones keep what they cover. -/
theorem rdels_keep_coverage (sh : Shape) (sec : Nat → List (List RdelEntry)) (j : RdelJob) (outs : List TableRef)
    (h : Ready sh sec j) (hcuts : Cuts sh j.tgt j.outLo outs) :
    ∃ ps : List (RdelJob × Option Bytes), j.outputs sh outs = .ok ps ∧
      (∀ p ∈ ps, ∀ blocks, OnDevice sh blocks sec p.1 → ∃ n merged kept, Keeps sh sec j p merged kept ∧
        ∀ readFuel ≥ n, ∀ fuel ≥ n, (p.1.merger.mergeAll sh p.1.targets readFuel fuel).eval blocks = .ok merged ∧
          (p.1.sealRdels sh readFuel fuel p.2).eval blocks = .ok kept) ∧
      ∀ x : Bytes, x.length ≤ sh.KEY_MAX → j.outLo ≤ x → ∃! i : Nat, ∃ p, ps[i]? = some p ∧ Owns p x := by
  obtain ⟨ps, hps, hfollows, howns⟩ := outputs_spec hcuts h rfl rfl
  refine ⟨ps, hps, fun p hp blocks hon => ?_, howns⟩
  have hf := hfollows p hp
  obtain ⟨n, merged, hrun, hsorted, hanswers⟩ := merger_spec hf.ready hon
  refine ⟨n, merged, merged.filterMap (Span.clip (some p.1.outLo) p.2), ⟨hsorted, hanswers, hsorted.clip _ _, ?_, ?_⟩, ?_⟩
  · intro T hT x hx hown
    calc Span.cover T x (merged.filterMap (Span.clip (some p.1.outLo) p.2))
        = Span.cover T x merged := Span.cover_clip hown
      _ = Span.cover T x (p.1.inputs sec) := hanswers T (hf.sees hT) x
      _ = Span.cover T x (j.inputs sec) := hf.cover T x hx (hown.1 p.1.outLo rfl)
  · exact fun x hown => Span.cover_clip_of_not hown
  · intro readFuel hread fuel hle
    have hmerge := hrun readFuel hread fuel hle
    refine ⟨hmerge, ?_⟩
    unfold sealRdels
    rw [Reads.eval_bind, hmerge]
    rfl

/-- The tombstones of a source, table 1, and of a target, table 2. -/
def overlapRdels (id : Nat) : List (List RdelEntry) := if id = 1 then [[⟨[1], [9], 5⟩]] else [[⟨[2], [6], 3⟩]]

def overlap : RdelJob where
  sources := [⟨1, 0, 4, [1], [9], 5, 5, 0, 1, 0, 0⟩]
  srcRetired := 0
  level := [⟨2, 8, 4, [2], [6], 3, 3, 0, 1, 0, 0⟩]
  tgt := [2]
  tgtRetired := 0
  outLo := [1]
  bottommost := true
  oldestSnapshot := 4

/-- The blocks of both sections. -/
def overlapBlocks (i : Nat) : Bytes := withCrc (rdelBody .small (if i < 8 then [⟨[1], [9], 5⟩] else [⟨[2], [6], 3⟩]))

/-- An output that ends between the bounds of both tables. -/
def overlapOut : TableRef := ⟨3, 16, 5, [1], [4], 5, 3, 1, 1, 0, 0⟩

theorem overlap_ready : Ready .small overlapRdels overlap where
  sources_lt := by decide
  input := by
    rintro t (⟨i, hi, -⟩ | ht)
    · obtain rfl : t = ⟨1, 0, 4, [1], [9], 5, 5, 0, 1, 0, 0⟩ := by
        have := List.mem_of_getElem? hi
        simpa [overlap] using this
      refine ⟨by decide, by decide, ?_, by decide, by decide⟩
      intro e he x _ _ hx
      obtain rfl : e = ⟨[1], [9], 5⟩ := by simpa [overlapRdels] using he
      exact le_of_lt hx
    · obtain rfl : t = ⟨2, 8, 4, [2], [6], 3, 3, 0, 1, 0, 0⟩ := by
        have hlive : overlap.liveTargets = [⟨2, 8, 4, [2], [6], 3, 3, 0, 1, 0, 0⟩] := by decide
        simpa [hlive] using ht
      refine ⟨by decide, by decide, ?_, by decide, by decide⟩
      intro e he x _ _ hx
      obtain rfl : e = ⟨[2], [6], 3⟩ := by simpa [overlapRdels] using he
      exact le_of_lt hx
  found := by decide
  apart := by decide

/-- The job behind that output. -/
def overlapRest : RdelJob :=
  { overlap with level := [overlapOut, ⟨2, 8, 4, [4, 0], [6], 3, 3, 0, 1, 0, 0⟩], outLo := [4, 0] }

theorem overlap_on {base : Nat} {e : RdelEntry} (he : RdelWF .small e) (hb : base ≤ U64_MAX)
    (hblock : overlapBlocks base = withCrc (rdelBody .small [e])) : RdelsOn .small overlapBlocks base [[e]] := by
  have hok : RdelBlockOk .small [e] := by
    refine ⟨by simp, ?_, by simp, by simpa using he⟩
    have h1 := he.start_le
    have h2 := he.stop_le
    have hkey : Shape.small.KEY_MAX = 16 := rfl
    have hblock : Shape.small.BLOCK = 512 := rfl
    unfold RDEL_TRAILER
    simp [encodeRdels, RdelWriter.length_encodeRdel, rdelEntryLen]
    omega
  refine ⟨by simpa using hok, by simp; omega, fun i b hi => ?_⟩
  cases i with
  | zero =>
    obtain rfl := Option.some.inj hi
    rw [Nat.add_zero, hblock]
    exact hok.sealRdel_eq
  | succ i => cases hi

/-- The last output of a job that cuts through both tables: a snapshot between the two stamps still sees the older one. -/
theorem rdels_keep_coverage_overlap : ∃ kept n, Span.cover 4 [5] kept = some 3 ∧ ∀ readFuel ≥ n, ∀ fuel ≥ n,
    (overlapRest.sealRdels .small readFuel fuel none).eval overlapBlocks = .ok kept := by
  have hcuts : Cuts .small overlap.tgt overlap.outLo [overlapOut] :=
    .split (by decide) (by decide) (by decide) (by decide) (show overlapOut.lastKey < [5] by decide) (by decide)
      fun hi _ => .last
  obtain ⟨ps, hps, hkeeps, -⟩ := rdels_keep_coverage .small overlapRdels overlap [overlapOut] overlap_ready hcuts
  have hrun : overlap.outputs .small [overlapOut] = .ok [(overlap, some [4, 0]), (overlapRest, none)] := by decide
  obtain rfl := Except.ok.inj (hrun.symm.trans hps)
  have hon : OnDevice .small overlapBlocks overlapRdels overlapRest := by
    rintro t (⟨i, hi, -⟩ | ht)
    · obtain rfl : t = ⟨1, 0, 4, [1], [9], 5, 5, 0, 1, 0, 0⟩ := by
        have := List.mem_of_getElem? hi
        simpa [overlapRest, overlap] using this
      exact ⟨0, rfl, rfl, overlap_on ⟨by simp, by simp, by decide, by decide, by decide⟩ (by decide) rfl⟩
    · obtain rfl : t = ⟨2, 8, 4, [4, 0], [6], 3, 3, 0, 1, 0, 0⟩ := by
        have hlive : overlapRest.liveTargets = [⟨2, 8, 4, [4, 0], [6], 3, 3, 0, 1, 0, 0⟩] := by decide
        simpa [hlive] using ht
      exact ⟨8, rfl, rfl, overlap_on ⟨by simp, by simp, by decide, by decide, by decide⟩ (by decide) rfl⟩
  obtain ⟨n, merged, kept, hk, hfuel⟩ := hkeeps (overlapRest, none) (by simp) overlapBlocks hon
  refine ⟨kept, n, ?_, fun readFuel hread fuel hle => (hfuel readFuel hread fuel hle).2⟩
  rw [hk.owned 4 (Or.inl le_rfl) [5] (by decide) ⟨by simp [overlapRest]; decide, by simp⟩]
  decide

end RdelJob

end Horton
