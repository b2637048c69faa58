import Horton.Db.Read

/-!
# The sources of a read

What a read and a scan see of a handle whose tables lie on the device: one `Source` for the memtable and one for each table,
with the newest visible version of the key and the newest visible range tombstone around it.

`Collected` is the invariant of the fold of `read_point`, prunes included; where the merge rule ranks the versions at hand, a
read answers what `Replies` says of its sources, in whatever order they come (`readPoint_spec`).
-/

namespace Horton

open BlockDev Sstable

/-! ### What a read sees -/

/-- A version of a key. -/
structure Hit where
  ver : Version
  tombstone : Bool
  val : Bytes
  expireAt : Nat
  deriving DecidableEq, Repr

/-- The newest visible version of a key in the memtable or in a table, and the newest visible range tombstone around it. -/
structure Source where
  hit : Option Hit
  cover : Option Version
  deriving DecidableEq, Repr

namespace Source

def versions (s : Source) : List Version := (s.hit.map Hit.ver).toList ++ s.cover.toList

end Source

/-- The entries and the range tombstones of each table, by its id. -/
structure Contents where
  points : Nat → List SstEntry
  rdels : Nat → List RdelEntry

/-- Table `t` lies on the device with its contents. -/
structure Contents.On (c : Contents) (sh : Shape) (blocks : Nat → Bytes) (t : TableRef) : Prop where
  stored : ∃ k bs bins minSeq, TableOn sh blocks t.firstBlock k bs bins.length minSeq ∧ 0 < k ∧ k < 256 ∧
    minSeq ≤ U64_MAX ∧ RdelsOn sh blocks (t.firstBlock + bs.length) bins ∧ bins.length ≤ U32_MAX ∧
    t.rdelBlocks = bins.length ∧ t.blockCount = bs.length + bins.length + 3 ∧ t.firstBlock + t.blockCount ≤ U64_MAX ∧
    bs.flatten = c.points t.id ∧ bins.flatten = c.rdels t.id
  sorted : (c.points t.id).Pairwise SstEntry.Before
  last_le : ∀ e ∈ c.points t.id, e.key ≤ t.lastKey
  vals : ∀ e ∈ c.points t.id, e.val.length ≤ sh.VAL_MAX
  points_le : ∀ e ∈ c.points t.id, e.seq ≤ t.maxSeq
  rdels_le : ∀ e ∈ c.rdels t.id, e.seq ≤ t.maxSeq

namespace Db

variable (c : Contents) (key : Bytes) (maxSeq : Nat)

def tableSource (t : TableRef) : Source :=
  if t.covers key then
    ⟨(visible (c.points t.id) key maxSeq).map fun e => ⟨.table t.nodeId t.sealWall e.seq, e.tombstone, e.val, e.expireAt⟩,
      (covering (c.rdels t.id) key maxSeq).map (.table t.nodeId t.sealWall)⟩
  else ⟨none, none⟩

def memtableSource (db : Db) : Source :=
  ⟨(db.table.getAt key maxSeq).map fun e => ⟨.memtable db.cfg.nodeId e.seq, e.tombstone, e.val, e.expireAt⟩,
    (db.table.maxCoveringRdel key maxSeq).map (.memtable db.cfg.nodeId)⟩

/-- The sources of a read, when the tables come in the order `ts`. -/
def sources (db : Db) (ts : List TableRef) : List Source := db.memtableSource key maxSeq :: ts.map (tableSource c key maxSeq)

end Db

/-- A range tombstone of some source beats `v`. -/
def hidden (ss : List Source) (v : Version) : Bool := ss.any fun s => s.cover.any fun q => versionGt q v

/-- What a read answers when `h` wins. -/
def reply (ss : List Source) (valBuf now : Nat) (h : Hit) : Except Error (Option Bytes) :=
  if h.tombstone || hidden ss h.ver || decide (h.expireAt ≠ 0 ∧ h.expireAt ≤ now) then .ok none
  else if h.val.length > valBuf then .error (.bufferTooSmall h.val.length)
  else .ok (some h.val)

/-- The read answers `r`: its winner is a hit that no other beats. -/
def Replies (ss : List Source) (valBuf now : Nat) (r : Except Error (Option Bytes)) : Prop :=
  (∀ s ∈ ss, s.hit = none) ∧ r = .ok none ∨
    ∃ h, Unbeaten (fun a b : Hit => versionGt a.ver b.ver) (ss.filterMap Source.hit) h ∧ r = reply ss valBuf now h

variable {ss ss' : List Source} {s : Source} {acc acc' : ReadAcc} {valBuf now : Nat} {r r' : Except Error (Option Bytes)}

theorem hidden_perm (h : ss.Perm ss') (v : Version) : hidden ss v = hidden ss' v := by
  unfold hidden
  rw [Bool.eq_iff_iff, List.any_eq_true, List.any_eq_true]
  simp only [h.mem_iff]

theorem Replies.perm (h : ss.Perm ss') (hr : Replies ss valBuf now r) : Replies ss' valBuf now r := by
  rcases hr with ⟨hnone, rfl⟩ | ⟨w, hw, rfl⟩
  · exact Or.inl ⟨fun s hs => hnone s (h.mem_iff.mpr hs), rfl⟩
  · refine Or.inr ⟨w, (Unbeaten.perm (h.filterMap _)).mp hw, ?_⟩
    unfold reply
    rw [hidden_perm h]

theorem hits_sublist (ss : List Source) :
    ((ss.filterMap Source.hit).map Hit.ver).Sublist (ss.flatMap Source.versions) := by
  induction ss with
  | nil => exact .slnil
  | cons s ss ih =>
    rw [List.flatMap_cons]
    cases hs : s.hit with
    | none =>
      rw [List.filterMap_cons_none hs]
      exact ih.trans (List.sublist_append_right _ _)
    | some h =>
      rw [List.filterMap_cons_some hs, List.map_cons]
      unfold Source.versions
      rw [hs, List.append_assoc]
      exact .cons_cons _ (ih.trans (List.sublist_append_right _ _))

/-- The hits of a read have different versions. -/
theorem hits_nodup (hd : Version.Distinct (ss.flatMap Source.versions)) :
    ((ss.filterMap Source.hit).map Hit.ver).Nodup := by
  refine (hd.apart.sublist (hits_sublist ss)).imp ?_
  rintro a b hab rfl
  exact hab rfl rfl

theorem ver_mem {h : Hit} (hs : h ∈ ss.filterMap Source.hit) : h.ver ∈ ss.flatMap Source.versions :=
  (hits_sublist ss).subset (List.mem_map.mpr ⟨h, hs, rfl⟩)

theorem cover_mem {q : Version} (hs : s ∈ ss) (hq : s.cover = some q) : q ∈ ss.flatMap Source.versions := by
  refine List.mem_flatMap.mpr ⟨s, hs, ?_⟩
  unfold Source.versions
  simp [hq]

/-- One read gives one answer. -/
theorem Replies.unique (hd : Version.Distinct (ss.flatMap Source.versions))
    (hr : Ranked (versionGt · ·) (ss.flatMap Source.versions)) (h : Replies ss valBuf now r)
    (h' : Replies ss valBuf now r') : r = r' := by
  have hnone : (∀ s ∈ ss, s.hit = none) → ∀ w, w ∉ ss.filterMap Source.hit := by
    intro hall w hw
    obtain ⟨s, hs, hsw⟩ := List.mem_filterMap.mp hw
    rw [hall s hs] at hsw
    cases hsw
  rcases h with ⟨hall, rfl⟩ | ⟨w, hw, rfl⟩
  · rcases h' with ⟨-, rfl⟩ | ⟨w', hw', -⟩
    · rfl
    · exact absurd hw'.1 (hnone hall w')
  · rcases h' with ⟨hall, -⟩ | ⟨w', hw', rfl⟩
    · exact absurd hw.1 (hnone hall w)
    · have hheads := (hr.subset (hits_sublist ss).subset).of_map (hits_nodup hd)
      rw [hheads.unbeaten_unique hw hw']

/-! ### The fold of a read -/

namespace ReadAcc

/-- Takes in a source without the prunes. -/
def absorb (acc : ReadAcc) (s : Source) : ReadAcc :=
  let acc := match s.hit with
    | some h =>
      if versionGt h.ver acc.bestVer then
        if h.tombstone then { acc with best := .tombstone, bestVer := h.ver }
        else { acc with best := .value h.val, bestVer := h.ver, bestExpireAt := h.expireAt }
      else acc
    | none => acc
  match s.cover with
  | some q => if versionGt q acc.coverVer then { acc with coverVer := q } else acc
  | none => acc

/-- A source taken in: absorbed, or left out because nothing of it beats the best version. -/
def Takes (acc : ReadAcc) (s : Source) (acc' : ReadAcc) : Prop :=
  acc' = acc.absorb s ∨ acc' = acc ∧ ∀ v ∈ s.versions, versionGt v acc.bestVer = false

/-- The accumulator holds the head `h`. -/
def Shows (acc : ReadAcc) (h : Hit) : Prop :=
  acc.bestVer = h.ver ∧ acc.best = (if h.tombstone then .tombstone else .value h.val) ∧
    (h.tombstone = false → acc.bestExpireAt = h.expireAt)

/-- The accumulator behind the sources `ss`. -/
structure Collected (ss : List Source) (acc : ReadAcc) : Prop where
  best : acc.best = .missing ∧ acc.bestVer = .ZERO ∨ ∃ h ∈ ss.filterMap Source.hit, acc.Shows h
  top : ∀ h ∈ ss.filterMap Source.hit, versionGt h.ver acc.bestVer = false
  coverFrom : acc.coverVer = .ZERO ∨ ∃ s ∈ ss, s.cover = some acc.coverVer
  cover : ∀ s ∈ ss, ∀ q, s.cover = some q → versionGt q acc.coverVer = false ∨ versionGt q acc.bestVer = false

theorem collected_new : Collected [] .new where
  best := Or.inl ⟨rfl, rfl⟩
  top h hh := absurd hh (by simp)
  coverFrom := Or.inl rfl
  cover s hs := absurd hs (by simp)

/-- What the accumulator becomes by a source that is absorbed. -/
theorem absorb_spec (acc : ReadAcc) (s : Source) :
    ((∃ h, s.hit = some h ∧ versionGt h.ver acc.bestVer = true ∧ (acc.absorb s).Shows h) ∨
      (∀ h, s.hit = some h → versionGt h.ver acc.bestVer = false) ∧ (acc.absorb s).best = acc.best ∧
        (acc.absorb s).bestVer = acc.bestVer ∧ (acc.absorb s).bestExpireAt = acc.bestExpireAt) ∧
    ((∃ q, s.cover = some q ∧ versionGt q acc.coverVer = true ∧ (acc.absorb s).coverVer = q) ∨
      (∀ q, s.cover = some q → versionGt q acc.coverVer = false) ∧ (acc.absorb s).coverVer = acc.coverVer) := by
  obtain ⟨mid, hmid⟩ : ∃ mid : ReadAcc, mid = match s.hit with
    | some h =>
      if versionGt h.ver acc.bestVer then
        if h.tombstone then { acc with best := .tombstone, bestVer := h.ver }
        else { acc with best := .value h.val, bestVer := h.ver, bestExpireAt := h.expireAt }
      else acc
    | none => acc := ⟨_, rfl⟩
  have hpoint : mid.coverVer = acc.coverVer ∧ ((∃ h, s.hit = some h ∧ versionGt h.ver acc.bestVer = true ∧ mid.Shows h) ∨
      (∀ h, s.hit = some h → versionGt h.ver acc.bestVer = false) ∧ mid = acc) := by
    cases hs : s.hit with
    | none =>
      rw [hs] at hmid
      exact ⟨congrArg coverVer hmid, Or.inr ⟨fun h hh => absurd hh (by simp), hmid⟩⟩
    | some h =>
      rw [hs] at hmid
      dsimp only at hmid
      cases hgt : versionGt h.ver acc.bestVer with
      | false =>
        rw [if_neg (by simp [hgt])] at hmid
        refine ⟨congrArg coverVer hmid, Or.inr ⟨?_, hmid⟩⟩
        intro h' hh'
        rw [← Option.some.inj hh']
        exact hgt
      | true =>
        rw [if_pos hgt] at hmid
        cases ht : h.tombstone with
        | true =>
          rw [if_pos ht] at hmid
          rw [hmid]
          exact ⟨rfl, Or.inl ⟨h, rfl, hgt, rfl, by simp [ht], by simp [ht]⟩⟩
        | false =>
          rw [if_neg (by simp [ht])] at hmid
          rw [hmid]
          exact ⟨rfl, Or.inl ⟨h, rfl, hgt, rfl, by simp [ht], fun _ => rfl⟩⟩
  have habsorb : acc.absorb s = match s.cover with
      | some q => if versionGt q mid.coverVer then { mid with coverVer := q } else mid
      | none => mid := by
    rw [hmid]
    rfl
  obtain ⟨hcover, hpoint⟩ := hpoint
  have hbest : (acc.absorb s).best = mid.best ∧ (acc.absorb s).bestVer = mid.bestVer ∧
      (acc.absorb s).bestExpireAt = mid.bestExpireAt := by
    rw [habsorb]
    cases s.cover with
    | none => exact ⟨rfl, rfl, rfl⟩
    | some q =>
      dsimp only
      split <;> exact ⟨rfl, rfl, rfl⟩
  constructor
  · rcases hpoint with ⟨h, hh, hgt, hshow⟩ | ⟨hnone, heq⟩
    · refine Or.inl ⟨h, hh, hgt, ?_⟩
      unfold Shows at hshow ⊢
      rw [hbest.1, hbest.2.1, hbest.2.2]
      exact hshow
    · refine Or.inr ⟨hnone, ?_⟩
      rw [hbest.1, hbest.2.1, hbest.2.2, heq]
      exact ⟨rfl, rfl, rfl⟩
  · rw [habsorb]
    cases hs : s.cover with
    | none => exact Or.inr ⟨fun q hq => absurd hq (by simp), hcover⟩
    | some q =>
      dsimp only
      rw [hcover]
      cases hgt : versionGt q acc.coverVer with
      | true =>
        rw [if_pos rfl]
        exact Or.inl ⟨q, rfl, hgt, rfl⟩
      | false =>
        rw [if_neg Bool.false_ne_true]
        refine Or.inr ⟨?_, hcover⟩
        intro q' hq'
        rw [← Option.some.inj hq']
        exact hgt

/-- `new` is no worse than `old`. -/
def NoWorse (old new : Version) : Prop := new = old ∨ versionGt new old = true

variable {vs : List Version}

theorem not_beats_noWorse {v old new : Version} (hr : Ranked (versionGt · ·) vs) (hv : v ∈ vs) (ho : old ∈ vs)
    (hn : new ∈ vs) (hw : NoWorse old new) (h : versionGt v old = false) : versionGt v new = false := by
  rcases hw with rfl | hw
  · exact h
  · have hnot := hr.not_beats_of_le hv ho hn (by simp [h]) (hr.asymm hn ho hw)
    simpa using hnot

theorem Collected.best_mem (h : Collected ss acc) (hv : ∀ s ∈ ss, ∀ v ∈ s.versions, v ∈ vs) :
    acc.bestVer ∈ Version.ZERO :: vs := by
  rcases h.best with ⟨-, hz⟩ | ⟨w, hw, hshow⟩
  · rw [hz]
    exact List.mem_cons_self
  · obtain ⟨s, hs, hsw⟩ := List.mem_filterMap.mp hw
    rw [hshow.1]
    refine List.mem_cons_of_mem _ (hv s hs w.ver ?_)
    unfold Source.versions
    simp [hsw]

theorem Collected.cover_mem (h : Collected ss acc) (hv : ∀ s ∈ ss, ∀ v ∈ s.versions, v ∈ vs) :
    acc.coverVer ∈ Version.ZERO :: vs := by
  rcases h.coverFrom with hz | ⟨s, hs, hc⟩
  · rw [hz]
    exact List.mem_cons_self
  · refine List.mem_cons_of_mem _ (hv s hs _ ?_)
    unfold Source.versions
    simp [hc]

/-- One more source. -/
theorem Collected.step (hr : Ranked (versionGt · ·) (Version.ZERO :: vs)) (hv : ∀ x ∈ ss ++ [s], ∀ v ∈ x.versions, v ∈ vs)
    (h : Collected ss acc) (ht : acc.Takes s acc') : Collected (ss ++ [s]) acc' := by
  have hss : ∀ x ∈ ss, ∀ v ∈ x.versions, v ∈ vs := fun x hx => hv x (by simp [hx])
  have hhit : ∀ x ∈ ss ++ [s], ∀ w, x.hit = some w → w.ver ∈ Version.ZERO :: vs := by
    intro x hx w hw
    exact List.mem_cons_of_mem _ (hv x hx _ (by unfold Source.versions; simp [hw]))
  have hcov : ∀ x ∈ ss ++ [s], ∀ q, x.cover = some q → q ∈ Version.ZERO :: vs := by
    intro x hx q hq
    exact List.mem_cons_of_mem _ (hv x hx _ (by unfold Source.versions; simp [hq]))
  have hhits : ∀ w ∈ ss.filterMap Source.hit, w.ver ∈ Version.ZERO :: vs := by
    intro w hw
    obtain ⟨x, hx, hxw⟩ := List.mem_filterMap.mp hw
    exact hhit x (by simp [hx]) w hxw
  have hsplit : ∀ w ∈ (ss ++ [s]).filterMap Source.hit, w ∈ ss.filterMap Source.hit ∨ s.hit = some w := by
    intro w hw
    rw [List.filterMap_append] at hw
    rcases List.mem_append.mp hw with hw | hw
    · exact Or.inl hw
    · obtain ⟨x, hx, hxw⟩ := List.mem_filterMap.mp hw
      exact Or.inr (List.mem_singleton.mp hx ▸ hxw)
  have hbestMem := h.best_mem hss
  have hcoverMem := h.cover_mem hss
  rcases ht with rfl | ⟨rfl, hprune⟩
  · obtain ⟨hpoint, hcover⟩ := absorb_spec acc s
    -- Neither the best version nor the cover gets worse.
    have hbest : NoWorse acc.bestVer (acc.absorb s).bestVer ∧ (acc.absorb s).bestVer ∈ Version.ZERO :: vs := by
      rcases hpoint with ⟨w, hw, hgt, hshow⟩ | ⟨-, -, heq, -⟩
      · rw [hshow.1]
        exact ⟨Or.inr hgt, hhit s (by simp) w hw⟩
      · rw [heq]
        exact ⟨Or.inl rfl, hbestMem⟩
    have hcoverWorse : NoWorse acc.coverVer (acc.absorb s).coverVer ∧ (acc.absorb s).coverVer ∈ Version.ZERO :: vs := by
      rcases hcover with ⟨q, hq, hgt, heq⟩ | ⟨-, heq⟩
      · rw [heq]
        exact ⟨Or.inr hgt, hcov s (by simp) q hq⟩
      · rw [heq]
        exact ⟨Or.inl rfl, hcoverMem⟩
    constructor
    · rcases hpoint with ⟨w, hw, -, hshow⟩ | ⟨-, hb, hbv, hbe⟩
      · exact Or.inr ⟨w, List.mem_filterMap.mpr ⟨s, by simp, hw⟩, hshow⟩
      · rcases h.best with ⟨hm, hz⟩ | ⟨w, hw, hshow⟩
        · exact Or.inl ⟨hb.trans hm, hbv.trans hz⟩
        · refine Or.inr ⟨w, ?_, hbv.trans hshow.1, hb.trans hshow.2.1, fun ht => hbe.trans (hshow.2.2 ht)⟩
          rw [List.filterMap_append]
          exact List.mem_append_left _ hw
    · intro w hw
      rcases hsplit w hw with hw | hw
      · exact not_beats_noWorse hr (hhits w hw) hbestMem hbest.2 hbest.1 (h.top w hw)
      · rcases hpoint with ⟨w', hw', -, hshow⟩ | ⟨hnone, -, heq, -⟩
        · obtain rfl := Option.some.inj (hw.symm.trans hw')
          rw [hshow.1]
          simpa using hr.irrefl _ (hhit s (by simp) w hw)
        · rw [heq]
          exact hnone w hw
    · rcases hcover with ⟨q, hq, -, heq⟩ | ⟨-, heq⟩
      · exact Or.inr ⟨s, by simp, by rw [heq]; exact hq⟩
      · rw [heq]
        refine h.coverFrom.imp_right fun hex => ?_
        obtain ⟨x, hx, hxq⟩ := hex
        exact ⟨x, by simp [hx], hxq⟩
    · intro x hx q hq
      have hqm := hcov x hx q hq
      rcases List.mem_append.mp hx with hx | hx
      · refine (h.cover x hx q hq).imp (fun hc => ?_) fun hc => ?_
        · exact not_beats_noWorse hr hqm hcoverMem hcoverWorse.2 hcoverWorse.1 hc
        · exact not_beats_noWorse hr hqm hbestMem hbest.2 hbest.1 hc
      · obtain rfl := List.mem_singleton.mp hx
        left
        rcases hcover with ⟨q', hq', -, heq⟩ | ⟨hnone, heq⟩
        · obtain rfl := Option.some.inj (hq.symm.trans hq')
          rw [heq]
          simpa using hr.irrefl _ hqm
        · rw [heq]
          exact hnone q hq
  · constructor
    · refine h.best.imp_right fun hex => ?_
      obtain ⟨w, hw, hshow⟩ := hex
      refine ⟨w, ?_, hshow⟩
      rw [List.filterMap_append]
      exact List.mem_append_left _ hw
    · intro w hw
      rcases hsplit w hw with hw | hw
      · exact h.top w hw
      · exact hprune w.ver (by unfold Source.versions; simp [hw])
    · refine h.coverFrom.imp_right fun hex => ?_
      obtain ⟨x, hx, hxq⟩ := hex
      exact ⟨x, by simp [hx], hxq⟩
    · intro x hx q hq
      rcases List.mem_append.mp hx with hx | hx
      · exact h.cover x hx q hq
      · obtain rfl := List.mem_singleton.mp hx
        exact Or.inr (hprune q (by unfold Source.versions; simp [hq]))

/-- The answer of an accumulator is the reply of its winner. -/
theorem Collected.answer {blocks : Nat → Bytes} (hr : Ranked (versionGt · ·) (Version.ZERO :: ss.flatMap Source.versions))
    (hpos : ∀ v ∈ ss.flatMap Source.versions, 0 < v.seq) (h : Collected ss acc) (valBuf now : Nat) :
    Replies ss valBuf now ((Db.answer valBuf now acc).eval blocks) := by
  have hv : ∀ x ∈ ss, ∀ v ∈ x.versions, v ∈ ss.flatMap Source.versions := fun x hx v hm => List.mem_flatMap.mpr ⟨x, hx, hm⟩
  rcases h.best with ⟨hm, hz⟩ | ⟨w, hw, hver, hbest, hexp⟩
  · refine Or.inl ⟨fun s hs => ?_, ?_⟩
    · cases hh : s.hit with
      | none => rfl
      | some w =>
        have hmem : w ∈ ss.filterMap Source.hit := List.mem_filterMap.mpr ⟨s, hs, hh⟩
        have htop := h.top w hmem
        rw [hz, Version.versionGt_zero (hpos _ (ver_mem hmem)) rfl] at htop
        cases htop
    · unfold Db.answer
      rw [hm]
      rfl
  · have htop : ∀ b ∈ ss.filterMap Source.hit, ¬versionGt b.ver w.ver = true := by
      intro b hb
      have := h.top b hb
      rw [hver] at this
      simp [this]
    refine Or.inr ⟨w, ⟨hw, htop⟩, ?_⟩
    have hwm : w.ver ∈ Version.ZERO :: ss.flatMap Source.versions := List.mem_cons_of_mem _ (ver_mem hw)
    -- The greatest cover seen beats the winner when any does.
    have hhidden : versionGt acc.coverVer acc.bestVer = hidden ss w.ver := by
      rw [hver, Bool.eq_iff_iff]
      unfold hidden
      rw [List.any_eq_true]
      constructor
      · intro hgt
        rcases h.coverFrom with hc | ⟨s, hs, hc⟩
        · rw [hc, Version.not_versionGt_zero rfl] at hgt
          cases hgt
        · exact ⟨s, hs, by rw [hc]; exact hgt⟩
      · rintro ⟨s, hs, hany⟩
        cases hq : s.cover with
        | none =>
          rw [hq] at hany
          cases hany
        | some q =>
          rw [hq] at hany
          have hqm : q ∈ Version.ZERO :: ss.flatMap Source.versions := List.mem_cons_of_mem _ (Horton.cover_mem hs hq)
          have hgt : versionGt q w.ver = true := hany
          rcases h.cover s hs q hq with hc | hc
          · by_contra hnot
            exact hr.not_beats_of_le hqm (h.cover_mem hv) hwm (by simp [hc]) hnot hgt
          · rw [hver, hgt] at hc
            cases hc
    unfold Db.answer reply
    rw [hbest, ← hhidden]
    cases ht : w.tombstone with
    | true => rfl
    | false =>
      rw [hexp ht, if_neg Bool.false_ne_true]
      dsimp only
      cases versionGt acc.coverVer acc.bestVer with
      | true => rfl
      | false =>
        by_cases he : w.expireAt ≠ 0 ∧ w.expireAt ≤ now
        · have hon : (false || false || decide (w.expireAt ≠ 0 ∧ w.expireAt ≤ now)) = true := by simpa using he
          rw [if_neg Bool.false_ne_true, if_pos he, if_pos hon]
          rfl
        · have hoff : ¬(false || false || decide (w.expireAt ≠ 0 ∧ w.expireAt ≤ now)) = true := by simpa using he
          rw [if_neg Bool.false_ne_true, if_neg he, if_neg hoff]
          split <;> rfl

end ReadAcc

namespace Db

variable {sh : Shape} {blocks : Nat → Bytes} {c : Contents} {key : Bytes} {maxSeq valBuf now : Nat} {db : Db}
  {t : TableRef} {acc : ReadAcc} {ss : List Source}

/-- Nothing in a table beats what its bound does not. -/
theorem tableSource_bound (hc : c.On sh blocks t) {v : Version}
    (hb : versionGt (.table t.nodeId t.sealWall t.maxSeq) v = false) : ∀ w ∈ (tableSource c key maxSeq t).versions,
      versionGt w v = false := by
  intro w hw
  unfold tableSource at hw
  split at hw
  · unfold Source.versions at hw
    rcases List.mem_append.mp hw with hw | hw
    · cases hv : visible (c.points t.id) key maxSeq with
      | none =>
        rw [hv] at hw
        cases hw
      | some e =>
        rw [hv] at hw
        obtain rfl : w = .table t.nodeId t.sealWall e.seq := by simpa using hw
        exact Version.not_versionGt_of_bound (hc.points_le e (List.mem_of_find?_eq_some hv)) hb
    · cases hq : covering (c.rdels t.id) key maxSeq with
      | none =>
        rw [hq] at hw
        cases hw
      | some q =>
        rw [hq] at hw
        obtain rfl : w = .table t.nodeId t.sealWall q := by simpa using hw
        obtain ⟨e, he, rfl⟩ := covering_eq_some.mp hq
        exact Version.not_versionGt_of_bound (hc.rdels_le e he.1) hb
  · cases hw

theorem point_visible (acc : ReadAcc) (t : TableRef) (hv : ∀ e ∈ c.points t.id, e.val.length ≤ sh.VAL_MAX) :
    ∃ hit, tableAnswer (c.points t.id) key sh.VAL_MAX maxSeq = .ok hit ∧ acc.point t maxSeq hit = acc.absorb
      ⟨(visible (c.points t.id) key maxSeq).map fun e => ⟨.table t.nodeId t.sealWall e.seq, e.tombstone, e.val, e.expireAt⟩,
        none⟩ := by
  cases hvis : visible (c.points t.id) key maxSeq with
  | none => exact ⟨.missing, tableAnswer_none hvis, rfl⟩
  | some e =>
    have hmem := List.mem_of_find?_eq_some hvis
    have hseq : e.seq ≤ maxSeq := by
      have := List.find?_some hvis
      exact (of_decide_eq_true this).2
    rw [tableAnswer_some hvis]
    unfold found
    cases ht : e.tombstone with
    | true =>
      refine ⟨.tombstone e.seq, rfl, ?_⟩
      unfold ReadAcc.point ReadAcc.absorb
      simp [hseq, ht]
    | false =>
      refine ⟨.value e.val e.seq e.expireAt, ?_, ?_⟩
      · rw [if_neg Bool.false_ne_true, if_neg (not_lt.mpr (hv e hmem))]
      · unfold ReadAcc.point ReadAcc.absorb
        simp [hseq, ht]

theorem cover_absorb (acc : ReadAcc) (t : TableRef) (h : Option Hit) (q : Option Nat) :
    (acc.absorb ⟨h, none⟩).cover t q = acc.absorb ⟨h, q.map (.table t.nodeId t.sealWall)⟩ := by
  unfold ReadAcc.cover ReadAcc.absorb
  cases q <;> rfl

/-- A table on the device is taken in. -/
theorem considerTable_spec (key : Bytes) (maxSeq : Nat) (hc : c.On sh blocks t) (acc : ReadAcc) :
    ∃ acc', (considerTable sh key maxSeq acc t).eval blocks = .ok acc' ∧ acc.Takes (tableSource c key maxSeq t) acc' := by
  obtain ⟨k, bs, bins, minSeq, hon, hk0, hk, hmin, hrdels, hbins, hcount, hblocks, hend, hpoints, htombs⟩ := hc.stored
  have hids := hon.ids
  unfold considerTable
  cases hcov : t.covers key with
  | false =>
    rw [if_pos (by simp)]
    refine ⟨acc, rfl, Or.inr ⟨rfl, ?_⟩⟩
    unfold tableSource
    rw [hcov]
    intro v hv
    cases hv
  | true =>
    cases hb : versionGt (.table t.nodeId t.sealWall t.maxSeq) acc.bestVer with
    | false =>
      rw [if_pos (by simp)]
      exact ⟨acc, rfl, Or.inr ⟨rfl, tableSource_bound hc hb⟩⟩
    | true =>
      have hfooter : t.footerBlock = some (t.firstBlock + bs.length + bins.length + 2) := by
        unfold TableRef.footerBlock
        rw [if_neg (by omega)]
        congr 1
        omega
      obtain ⟨reader, hopen, hindex, hbloom, hrk, hfirst, hrb, -⟩ := TableReader.open_spec hon ⟨hk0, hk⟩ hbins hmin
      have hsorted : bs.flatten.Pairwise fun x y => x.key ≤ y.key :=
        hpoints ▸ hc.sorted.imp SstEntry.Before.key_le
      have hlookup := TableReader.lookupAt_spec hon hsorted hindex hbloom hrk key sh.VAL_MAX maxSeq
      rw [hpoints] at hlookup
      obtain ⟨hit, hhit, hpoint⟩ := @point_visible sh c key maxSeq acc t hc.vals
      rw [hhit] at hlookup
      rw [if_neg (by simp), hfooter]
      show ∃ acc', Reads.eval blocks (_ >>= _) = _ ∧ _
      rw [Reads.eval_bind, hopen]
      show ∃ acc', Reads.eval blocks (_ >>= _) = _ ∧ _
      rw [Reads.eval_bind, hlookup]
      dsimp only [Except.bind]
      have hprobe := coveringRdelSeqIn_spec hrdels key maxSeq
      rw [htombs] at hprobe
      refine ⟨acc.absorb (tableSource c key maxSeq t), ?_, Or.inl rfl⟩
      unfold tableSource
      rw [if_pos hcov, ← cover_absorb, ← hpoint, hrb, hfirst]
      by_cases hzero : bins.length > 0
      · rw [if_pos hzero, Reads.eval_bind, hprobe]
        rfl
      · have hnil : c.rdels t.id = [] := by
          rw [← htombs, List.length_eq_zero_iff.mp (by omega : bins.length = 0)]
          rfl
        rw [if_neg hzero, hnil]
        rfl

/-- Taking in the tables one by one. -/
theorem considerTables_spec {vs : List Version} (hr : Ranked (versionGt · ·) (Version.ZERO :: vs)) {ts : List TableRef}
    (hc : ∀ t ∈ ts, c.On sh blocks t) (hv : ∀ s ∈ ss ++ ts.map (tableSource c key maxSeq), ∀ v ∈ s.versions, v ∈ vs)
    (h : ReadAcc.Collected ss acc) : ∃ acc', (ts.foldlM (considerTable sh key maxSeq) acc).eval blocks = .ok acc' ∧
      ReadAcc.Collected (ss ++ ts.map (tableSource c key maxSeq)) acc' := by
  induction ts generalizing ss acc with
  | nil => exact ⟨acc, rfl, by simpa using h⟩
  | cons t ts ih =>
    obtain ⟨mid, hrun, htakes⟩ := considerTable_spec key maxSeq (hc t (by simp)) acc
    have happend : ss ++ (t :: ts).map (tableSource c key maxSeq) =
        ss ++ [tableSource c key maxSeq t] ++ ts.map (tableSource c key maxSeq) := by simp
    rw [happend] at hv ⊢
    have hmid := h.step hr (fun x hx => hv x (List.mem_append_left _ hx)) htakes
    obtain ⟨acc', hrest, hcollected⟩ := ih (fun t ht => hc t (by simp [ht])) hv hmid
    refine ⟨acc', ?_, hcollected⟩
    rw [List.foldlM_cons, Reads.eval_bind, hrun]
    exact hrest

/-- The memtable is the first source. -/
theorem considerMemtable_spec {vs : List Version} (hr : Ranked (versionGt · ·) (Version.ZERO :: vs))
    (hv : ∀ v ∈ (db.memtableSource key maxSeq).versions, v ∈ vs)
    (hpos : ∀ v ∈ (db.memtableSource key maxSeq).versions, 0 < v.seq) :
    ReadAcc.Collected [db.memtableSource key maxSeq] (db.considerMemtable key maxSeq) := by
  refine ReadAcc.collected_new.step hr (by simpa using hv) (Or.inl ?_)
  unfold considerMemtable ReadAcc.absorb
  unfold memtableSource Source.versions at hpos
  unfold memtableSource
  have hhit : ∀ e, db.table.getAt key maxSeq = some e → versionGt (.memtable db.cfg.nodeId e.seq) .ZERO = true := by
    intro e he
    exact Version.versionGt_zero (hpos _ (by simp [he])) rfl
  have hcover : ∀ q, db.table.maxCoveringRdel key maxSeq = some q → versionGt (.memtable db.cfg.nodeId q) .ZERO = true := by
    intro q hq
    exact Version.versionGt_zero (hpos _ (by simp [hq])) rfl
  cases hg : db.table.getAt key maxSeq with
  | none =>
    cases hq : db.table.maxCoveringRdel key maxSeq with
    | none => rfl
    | some q =>
      have := hcover q hq
      simp [ReadAcc.new, this]
  | some e =>
    have he := hhit e hg
    cases hq : db.table.maxCoveringRdel key maxSeq with
    | none => simp [ReadAcc.new, he]
    | some q =>
      have := hcover q hq
      cases ht : e.tombstone <;> simp [ReadAcc.new, he, this, ht]

/-! ### The sources of a handle -/

/-- The sources of a read of the handle: the memtable and the tables of its manifest. -/
def sourcesAt (sh : Shape) (c : Contents) (db : Db) (key : Bytes) (maxSeq : Nat) : List Source :=
  db.sources c key maxSeq (db.scanOrder sh)

/-- The versions a read can choose from: of each source one of the key and one of a range tombstone around it. -/
def versionsAt (sh : Shape) (c : Contents) (db : Db) (key : Bytes) (maxSeq : Nat) : List Version :=
  (db.sourcesAt sh c key maxSeq).flatMap Source.versions

theorem readOrder_perm (sh : Shape) (db : Db) : (db.readOrder sh).Perm (db.scanOrder sh) := by
  apply List.Perm.flatMap_left
  intro li _
  split
  · rename_i h
    rw [h]
    exact List.reverse_perm _
  · exact .refl _

theorem scanOrder_eq (h : db.manifest.levels.length = sh.LEVELS) : db.scanOrder sh = db.manifest.tables := by
  unfold scanOrder Manifest.tables
  rw [List.flatMap_def, ← h]
  congr 1
  apply List.ext_getElem
  · simp
  · intro i h1 h2
    simp [Manifest.level, List.getD_eq_getElem?_getD, h2]

/-- A read answers from its sources, in whatever order they come. -/
theorem readPoint_spec (hc : ∀ t ∈ db.scanOrder sh, c.On sh blocks t)
    (hd : Version.Distinct (db.versionsAt sh c key maxSeq)) (hr : Ranked (versionGt · ·) (db.versionsAt sh c key maxSeq)) :
    Replies (db.sourcesAt sh c key maxSeq) valBuf now ((db.readPoint sh key valBuf maxSeq now none).eval blocks) := by
  have hperm : (db.sources c key maxSeq (db.readOrder sh)).Perm (db.sourcesAt sh c key maxSeq) :=
    ((readOrder_perm sh db).map _).cons _
  have hmem : ∀ v, v ∈ (db.sources c key maxSeq (db.readOrder sh)).flatMap Source.versions ↔
      v ∈ db.versionsAt sh c key maxSeq := fun v => (hperm.flatMap_right _).mem_iff
  have hpos : ∀ v ∈ (db.sources c key maxSeq (db.readOrder sh)).flatMap Source.versions, 0 < v.seq :=
    fun v hv => hd.pos v ((hmem v).mp hv)
  have hzero := Version.ranked_zero hpos (hr.subset fun v hv => (hmem v).mp hv)
  have hin : ∀ s ∈ db.sources c key maxSeq (db.readOrder sh), ∀ v ∈ s.versions,
      v ∈ (db.sources c key maxSeq (db.readOrder sh)).flatMap Source.versions :=
    fun s hs v hv => List.mem_flatMap.mpr ⟨s, hs, hv⟩
  have hfirst := considerMemtable_spec hzero (hin _ List.mem_cons_self) fun v hv => hpos v (hin _ List.mem_cons_self v hv)
  obtain ⟨acc, hrun, hcollected⟩ := considerTables_spec hzero
    (fun t ht => hc t ((readOrder_perm sh db).mem_iff.mp ht)) (by simpa [sources] using hin) hfirst
  refine Replies.perm hperm ?_
  unfold readPoint
  have hall : (db.readOrder sh).filter (fun t => decide (some t.id ≠ none)) = db.readOrder sh :=
    List.filter_eq_self.mpr fun t _ => by simp
  rw [hall, Reads.eval_bind, hrun]
  exact hcollected.answer hzero hpos valBuf now

/-! ### Range tombstones over a scan -/

/-- The tables of a probe hide what their sources hide. -/
theorem hidesIn_spec {ts : List TableRef} (hc : ∀ t ∈ ts, c.On sh blocks t) (above : Version) :
    (hidesIn sh key maxSeq above ts).eval blocks = .ok (hidden (ts.map (tableSource c key maxSeq)) above) := by
  induction ts with
  | nil => rfl
  | cons t ts ih =>
    have ht := hc t List.mem_cons_self
    have hrest := ih fun t ht => hc t (List.mem_cons_of_mem _ ht)
    have hcons : hidden ((t :: ts).map (tableSource c key maxSeq)) above =
        ((tableSource c key maxSeq t).cover.any (versionGt · above) ||
          hidden (ts.map (tableSource c key maxSeq)) above) := by
      unfold hidden
      rw [List.map_cons, List.any_cons]
    obtain ⟨k, bs, bins, minSeq, hon, -, -, -, hrdels, -, hcount, hblocks, -, -, htombs⟩ := ht.stored
    have hids := hon.ids
    rw [hcons, hidesIn]
    by_cases hskip : (decide (t.rdelBlocks = 0) || !versionGt (.table t.nodeId t.sealWall t.maxSeq) above ||
        !t.covers key) = true
    · -- Nothing of a table that is left out hides the version.
      have hnone : (tableSource c key maxSeq t).cover.any (versionGt · above) = false := by
        cases hq : (tableSource c key maxSeq t).cover with
        | none => rfl
        | some q =>
          rw [Bool.or_eq_true, Bool.or_eq_true] at hskip
          rcases hskip with (hzero | hbound) | hcov
          · have hnil : c.rdels t.id = [] := by
              rw [← htombs, List.length_eq_zero_iff.mp (hcount.symm.trans (of_decide_eq_true hzero))]
              rfl
            unfold tableSource at hq
            rw [hnil] at hq
            split at hq <;> cases hq
          · have hin : q ∈ (tableSource c key maxSeq t).versions := by
              unfold Source.versions
              simp [hq]
            exact tableSource_bound ht (by simpa using hbound) q hin
          · unfold tableSource at hq
            rw [if_neg (by simpa using hcov)] at hq
            cases hq
      rw [if_pos hskip, hnone, Bool.false_or]
      exact hrest
    · have hcov : t.covers key = true := by
        simp only [Bool.or_eq_true, not_or, Bool.not_eq_true, Bool.not_eq_false'] at hskip
        exact hskip.2
      have hfirst : t.rdelFirst = some (t.firstBlock + bs.length) := by
        have hdata : t.dataBlocks = some bs.length := by
          unfold TableRef.dataBlocks
          rw [if_neg (by omega)]
          congr 1
          omega
        unfold TableRef.rdelFirst
        rw [hdata]
        exact if_neg (by omega)
      have hprobe := coveringRdelSeqIn_spec hrdels key maxSeq
      rw [htombs, ← hcount] at hprobe
      have hcover : (tableSource c key maxSeq t).cover =
          (covering (c.rdels t.id) key maxSeq).map (.table t.nodeId t.sealWall) := by
        unfold tableSource
        rw [if_pos hcov]
      rw [if_neg hskip, hfirst]
      show Reads.eval blocks (_ >>= _) = _
      rw [Reads.eval_bind, hprobe, hcover]
      show Reads.eval blocks (if _ then _ else _) = _
      have hany : ((covering (c.rdels t.id) key maxSeq).map (Version.table t.nodeId t.sealWall)).any (versionGt · above) =
          (covering (c.rdels t.id) key maxSeq).any fun q => versionGt (.table t.nodeId t.sealWall q) above := by
        cases covering (c.rdels t.id) key maxSeq <;> rfl
      rw [hany]
      cases (covering (c.rdels t.id) key maxSeq).any fun q => versionGt (.table t.nodeId t.sealWall q) above with
      | true => rfl
      | false => exact hrest

theorem rdelHides_spec (hc : ∀ t ∈ db.scanOrder sh, c.On sh blocks t) (above : Version) :
    (db.rdelHides sh key maxSeq above).eval blocks = .ok (hidden (db.sourcesAt sh c key maxSeq) above) := by
  have hcons : hidden (db.sourcesAt sh c key maxSeq) above =
      ((db.table.maxCoveringRdel key maxSeq).any (fun q => versionGt (.memtable db.cfg.nodeId q) above) ||
        hidden ((db.scanOrder sh).map (tableSource c key maxSeq)) above) := by
    unfold sourcesAt sources hidden memtableSource
    rw [List.any_cons]
    cases db.table.maxCoveringRdel key maxSeq <;> rfl
  rw [hcons]
  unfold rdelHides
  cases (db.table.maxCoveringRdel key maxSeq).any fun q => versionGt (.memtable db.cfg.nodeId q) above with
  | true => rfl
  | false => exact hidesIn_spec hc above

end Db

end Horton
