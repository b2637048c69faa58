import Horton.Scan.Answer
import Horton.Store.Log

/-!
# Sources that hold a log

Where one node wrote everything and the sources of a key hold a log between them, each in a part of its own, what they show
is what a read of the log finds (`Seen.shown_eq`), and the merge rule ranks their versions.
-/

namespace Horton

open BlockDev Sstable

/-- Entries with numbers of their own. -/
structure Entry.Numbered (es : List Entry) : Prop where
  pos : ∀ e ∈ es, 0 < e.seq
  apart : es.Pairwise fun a b => a.seq ≠ b.seq

namespace Entry.Numbered

variable {es es' : List Entry}

theorem eq_of_seq (h : Entry.Numbered es) {a b : Entry} (ha : a ∈ es) (hb : b ∈ es) (hs : a.seq = b.seq) : a = b := by
  have hsymm : Std.Symm fun a b : Entry => a.seq ≠ b.seq := ⟨fun _ _ h => h.symm⟩
  by_contra hne
  exact h.apart.forall ha hb hne hs

theorem sublist (h : Entry.Numbered es) (hs : es'.Sublist es) : Entry.Numbered es' :=
  ⟨fun e he => h.pos e (hs.subset he), h.apart.sublist hs⟩

theorem perm (h : Entry.Numbered es) (hp : es.Perm es') : Entry.Numbered es' :=
  ⟨fun e he => h.pos e (hp.mem_iff.mpr he), (hp.pairwise_iff fun hab => hab.symm).mp h.apart⟩

end Entry.Numbered

namespace Source

variable {node : Nat} {key : Bytes} {maxSeq now wall : Nat} {part es : List Entry} {s : Source} {ss : List Source}

/-- A source holds the entries `part`, all of them written by `node`. -/
structure Sees (node : Nat) (key : Bytes) (maxSeq wall : Nat) (part : List Entry) (s : Source) : Prop where
  hit : ∀ h, s.hit = some h ↔ ∃ e, Newest Entry.seq (Entry.Version key maxSeq) part e ∧
    h = ⟨⟨node, wall, e.seq⟩, e.tombstone, e.val, e.expireAt⟩
  cover : ∀ q, s.cover = some q ↔ ∃ e, Newest Entry.seq (Entry.Covers key maxSeq) part e ∧ q = ⟨node, wall, e.seq⟩

/-- The hit stands for the entry. -/
structure Stands (node : Nat) (e : Entry) (h : Hit) : Prop where
  node : h.ver.node = node
  seq : h.ver.seq = e.seq
  tombstone : h.tombstone = e.tombstone
  val : h.val = e.val
  expireAt : h.expireAt = e.expireAt

/-- The sources hold the entries `es` between them. -/
structure Seen (node : Nat) (key : Bytes) (maxSeq : Nat) (es : List Entry) (ss : List Source) : Prop where
  hit : ∀ h ∈ ss.filterMap Source.hit, ∃ e ∈ es, e.Version key maxSeq ∧ Stands node e h
  hits : ∀ e ∈ es, e.Version key maxSeq → ∃ h ∈ ss.filterMap Source.hit, e.seq ≤ h.ver.seq
  cover : ∀ s ∈ ss, ∀ q, s.cover = some q → ∃ e ∈ es, e.Covers key maxSeq ∧ q.node = node ∧ q.seq = e.seq
  covers : ∀ e ∈ es, e.Covers key maxSeq → ∃ s ∈ ss, ∃ q, s.cover = some q ∧ e.seq ≤ q.seq
  distinct : Version.Distinct (ss.flatMap Source.versions)

theorem Sees.version_mem (h : Sees node key maxSeq wall part s) {v : Version} (hv : v ∈ s.versions) :
    ∃ e ∈ part, v.node = node ∧ v.seq = e.seq ∧ ((e.Version key maxSeq ∧ ∃ w, s.hit = some w ∧ w.ver = v) ∨
      e.Covers key maxSeq ∧ s.cover = some v) := by
  unfold versions at hv
  rcases List.mem_append.mp hv with hv | hv
  · obtain ⟨w, hw, rfl⟩ : ∃ w, s.hit = some w ∧ w.ver = v := by simpa using hv
    obtain ⟨e, ⟨he, hver, -⟩, rfl⟩ := (h.hit w).mp hw
    exact ⟨e, he, rfl, rfl, Or.inl ⟨hver, _, hw, rfl⟩⟩
  · have hq : s.cover = some v := by simpa using hv
    obtain ⟨e, ⟨he, hcov, -⟩, rfl⟩ := (h.cover v).mp hq
    exact ⟨e, he, rfl, rfl, Or.inr ⟨hcov, hq⟩⟩

theorem Seen.version_mem (h : Seen node key maxSeq es ss) {v : Version} (hv : v ∈ ss.flatMap Source.versions) :
    ∃ e ∈ es, v.node = node ∧ v.seq = e.seq := by
  obtain ⟨s, hs, hv⟩ := List.mem_flatMap.mp hv
  unfold versions at hv
  rcases List.mem_append.mp hv with hv | hv
  · obtain ⟨w, hw, rfl⟩ : ∃ w, s.hit = some w ∧ w.ver = v := by simpa using hv
    obtain ⟨e, he, -, hst⟩ := h.hit w (List.mem_filterMap.mpr ⟨s, hs, hw⟩)
    exact ⟨e, he, hst.node, hst.seq⟩
  · have hq : s.cover = some v := by simpa using hv
    obtain ⟨e, he, -, hnode, hseq⟩ := h.cover s hs v hq
    exact ⟨e, he, hnode, hseq⟩

theorem seen_nil (node : Nat) (key : Bytes) (maxSeq : Nat) : Seen node key maxSeq [] [] where
  hit h hh := absurd hh (by simp)
  hits e he := absurd he (by simp)
  cover s hs := absurd hs (by simp)
  covers e he := absurd he (by simp)
  distinct := ⟨by simp, by simp⟩

/-- One more source, with a part of its own. -/
theorem Seen.cons (h : Seen node key maxSeq es ss) (hs : Sees node key maxSeq wall part s)
    (hn : Entry.Numbered (part ++ es)) : Seen node key maxSeq (part ++ es) (s :: ss) := by
  have hfirst : ∀ {p : Entry → Prop} {e : Entry}, e ∈ part → p e → ∃ a, Newest Entry.seq p part a := by
    intro p e he hp
    classical
    rcases newestOf_spec Entry.seq p part with ⟨-, hnone⟩ | ⟨a, -, ha⟩
    · exact absurd hp (hnone e he)
    · exact ⟨a, ha⟩
  constructor
  · intro w hw
    rw [List.filterMap_cons] at hw
    cases hh : s.hit with
    | none =>
      rw [hh] at hw
      obtain ⟨e, he, hver, hst⟩ := h.hit w hw
      exact ⟨e, List.mem_append_right _ he, hver, hst⟩
    | some w' =>
      rw [hh] at hw
      rcases List.mem_cons.mp hw with rfl | hw
      · obtain ⟨e, ⟨he, hver, -⟩, rfl⟩ := (hs.hit w).mp hh
        exact ⟨e, List.mem_append_left _ he, hver, rfl, rfl, rfl, rfl, rfl⟩
      · obtain ⟨e, he, hver, hst⟩ := h.hit w hw
        exact ⟨e, List.mem_append_right _ he, hver, hst⟩
  · intro e he hver
    rcases List.mem_append.mp he with he | he
    · obtain ⟨a, ha⟩ := hfirst he hver
      have hh := (hs.hit _).mpr ⟨a, ha, rfl⟩
      exact ⟨_, List.mem_filterMap.mpr ⟨s, List.mem_cons_self, hh⟩, ha.2.2 e he hver⟩
    · obtain ⟨w, hw, hle⟩ := h.hits e he hver
      obtain ⟨s', hs', hh⟩ := List.mem_filterMap.mp hw
      exact ⟨w, List.mem_filterMap.mpr ⟨s', List.mem_cons_of_mem _ hs', hh⟩, hle⟩
  · intro s' hs' q hq
    rcases List.mem_cons.mp hs' with rfl | hs'
    · obtain ⟨e, ⟨he, hcov, -⟩, rfl⟩ := (hs.cover q).mp hq
      exact ⟨e, List.mem_append_left _ he, hcov, rfl, rfl⟩
    · obtain ⟨e, he, hcov, hq⟩ := h.cover s' hs' q hq
      exact ⟨e, List.mem_append_right _ he, hcov, hq⟩
  · intro e he hcov
    rcases List.mem_append.mp he with he | he
    · obtain ⟨a, ha⟩ := hfirst he hcov
      exact ⟨s, List.mem_cons_self, _, (hs.cover _).mpr ⟨a, ha, rfl⟩, ha.2.2 e he hcov⟩
    · obtain ⟨s', hs', q, hq, hle⟩ := h.covers e he hcov
      exact ⟨s', List.mem_cons_of_mem _ hs', q, hq, hle⟩
  · rw [List.flatMap_cons]
    refine ⟨fun v hv => ?_, ?_⟩
    · rcases List.mem_append.mp hv with hv | hv
      · obtain ⟨e, he, -, hseq, -⟩ := hs.version_mem hv
        rw [hseq]
        exact hn.pos e (List.mem_append_left _ he)
      · exact h.distinct.pos v hv
    · rw [List.pairwise_append]
      refine ⟨?_, h.distinct.apart, fun v hv v' hv' _ => ?_⟩
      · -- A version of the key and a range tombstone around it are different entries.
        unfold versions
        cases hh : s.hit with
        | none => cases s.cover <;> simp
        | some w =>
          cases hc : s.cover with
          | none => simp
          | some q =>
            obtain ⟨a, ⟨ha, hver, -⟩, rfl⟩ := (hs.hit w).mp hh
            obtain ⟨b, ⟨hb, hcov, -⟩, rfl⟩ := (hs.cover q).mp hc
            have hne : a.seq ≠ b.seq := by
              intro heq
              have hab := hn.eq_of_seq (List.mem_append_left _ ha) (List.mem_append_left _ hb) heq
              have hrange := hver.1
              rw [hab, hcov.1] at hrange
              cases hrange
            simpa using hne
      · obtain ⟨a, ha, -, hseq, -⟩ := hs.version_mem hv
        obtain ⟨b, hb, -, hseq'⟩ := h.version_mem hv'
        rw [hseq, hseq']
        exact (List.pairwise_append.mp hn.apart).2.2 a ha b hb

/-- The versions of one node are never straddled. -/
theorem Seen.not_straddled (h : Seen node key maxSeq es ss) : ¬Version.Straddled (ss.flatMap Source.versions) := by
  rintro ⟨a, ha, b, hb, c, hc, -, hne, -⟩
  obtain ⟨x, -, hx, -⟩ := h.version_mem ha
  obtain ⟨z, -, hz, -⟩ := h.version_mem hc
  exact hne (hz.trans hx.symm)

theorem Seen.ranked (h : Seen node key maxSeq es ss) : Ranked (versionGt · ·) (ss.flatMap Source.versions) :=
  (Version.ranked_iff h.distinct).mpr h.not_straddled

/-- Versions of one node compare by their numbers. -/
theorem Seen.versionGt_iff (h : Seen node key maxSeq es ss) {a b : Version} (ha : a ∈ ss.flatMap Source.versions)
    (hb : b ∈ ss.flatMap Source.versions) : versionGt a b = true ↔ b.seq < a.seq := by
  obtain ⟨x, -, hx, -⟩ := h.version_mem ha
  obtain ⟨y, -, hy, -⟩ := h.version_mem hb
  rw [Version.versionGt_iff (h.distinct.pos a ha) (h.distinct.pos b hb)]
  have hn : a.node = b.node := hx.trans hy.symm
  simp [hn]

/-- The sources show what a read of their entries finds. -/
theorem Seen.shown_eq (h : Seen node key maxSeq es ss) (hn : Entry.Numbered es) (now : Nat) :
    shown ss now = (newestOf Entry.seq (Entry.BearsOn key maxSeq) es).bind (Entry.value now) := by
  have hheads := (h.ranked.subset (hits_sublist ss).subset).of_map (hits_nodup h.distinct)
  have hpos : ∀ w ∈ ss.filterMap Source.hit, 0 < w.ver.seq := fun w hw => h.distinct.pos _ (ver_mem hw)
  unfold shown
  rcases pickWinner_spec hpos hheads with ⟨hnil, hwin⟩ | ⟨w, hwin, hw, hbest⟩
  · -- No version of the key: a range tombstone at most bears on it.
    rw [hwin]
    cases hnew : newestOf Entry.seq (Entry.BearsOn key maxSeq) es with
    | none => rfl
    | some e =>
      obtain ⟨he, hbears, -⟩ := (newestOf_eq_some hn.apart).mp hnew
      rcases hbears with hver | hcov
      · obtain ⟨w, hw, -⟩ := h.hits e he hver
        rw [hnil] at hw
        cases hw
      · show none = Entry.value now e
        unfold Entry.value
        rw [if_pos (Or.inr (Or.inl hcov.1))]
  · rw [hwin]
    dsimp only
    obtain ⟨e, he, hver, hst⟩ := h.hit w hw
    have hwmem := ver_mem hw
    -- The winner stands for the newest version of the key.
    have hmax : ∀ b ∈ es, b.Version key maxSeq → b.seq ≤ e.seq := by
      intro b hb hbver
      obtain ⟨w', hw', hle⟩ := h.hits b hb hbver
      have hnot : ¬versionGt w'.ver w.ver = true := hbest w' hw'
      rw [h.versionGt_iff (ver_mem hw') hwmem, hst.seq] at hnot
      omega
    have hseq : ¬w.ver.seq = 0 := by
      have := hpos w hw
      omega
    -- It is hidden exactly by a newer range tombstone.
    have hhidden : hidden ss w.ver = true ↔ ∃ b ∈ es, b.Covers key maxSeq ∧ e.seq < b.seq := by
      unfold hidden
      rw [List.any_eq_true]
      constructor
      · rintro ⟨s, hs, hany⟩
        cases hq : s.cover with
        | none =>
          rw [hq] at hany
          cases hany
        | some q =>
          obtain ⟨b, hb, hcov, -, hbseq⟩ := h.cover s hs q hq
          rw [hq, Option.any_some, h.versionGt_iff (cover_mem hs hq) hwmem, hst.seq, hbseq] at hany
          exact ⟨b, hb, hcov, hany⟩
      · rintro ⟨b, hb, hcov, hlt⟩
        obtain ⟨s, hs, q, hq, hle⟩ := h.covers b hb hcov
        refine ⟨s, hs, ?_⟩
        rw [hq, Option.any_some, h.versionGt_iff (cover_mem hs hq) hwmem, hst.seq]
        omega
    by_cases hcovered : ∃ b ∈ es, b.Covers key maxSeq ∧ e.seq < b.seq
    · rw [if_pos (Or.inr (Or.inr (Or.inl (hhidden.mpr hcovered))))]
      obtain ⟨b, hb, hcov, hlt⟩ := hcovered
      cases hnew : newestOf Entry.seq (Entry.BearsOn key maxSeq) es with
      | none => rfl
      | some x =>
        obtain ⟨hx, hbears, hnewest⟩ := (newestOf_eq_some hn.apart).mp hnew
        rcases hbears with hxver | hxcov
        · have h1 := hmax x hx hxver
          have h2 := hnewest b hb (Or.inr hcov)
          omega
        · show none = Entry.value now x
          unfold Entry.value
          rw [if_pos (Or.inr (Or.inl hxcov.1))]
    · have hnewest : newestOf Entry.seq (Entry.BearsOn key maxSeq) es = some e := by
        refine (newestOf_eq_some hn.apart).mpr ⟨he, Or.inl hver, fun b hb hbears => ?_⟩
        rcases hbears with hbver | hbcov
        · exact hmax b hb hbver
        · by_contra hlt
          exact hcovered ⟨b, hb, hbcov, by omega⟩
      have hnot : hidden ss w.ver = false := by
        rw [← Bool.not_eq_true, hhidden]
        exact hcovered
      rw [hnewest, hnot, hst.tombstone, hst.val, hst.expireAt]
      show _ = Entry.value now e
      unfold Entry.value
      have hrange : e.rangeDel = false := hver.1
      simp [hseq, hrange]

end Source

end Horton
