import Horton.Db.Sources
import Horton.Scan.Basic

/-!
# What a scan answers

`shown` is what a scan gives for a key, from the sources of the key: the winner of the merge rule, unless it is hidden.
Where the merge rule ranks the versions, it is what a point read answers (`replies_shown`).
-/

namespace Horton

open BlockDev Sstable

variable {ss ss' : List Source} {valBuf now : Nat}

/-- The value that the sources of a key show. -/
def shown (ss : List Source) (now : Nat) : Option Bytes :=
  match pickWinner Hit.ver (ss.filterMap Source.hit) with
  | none => none
  | some w =>
    if w.ver.seq = 0 ∨ w.tombstone ∨ hidden ss w.ver ∨ (w.expireAt ≠ 0 ∧ w.expireAt ≤ now) then none else some w.val

/-! ### Winners -/

section Winner

variable {α : Type} {ver : α → Version} {hs : List α}

theorem pickWinner_nil : pickWinner ver ([] : List α) = none := rfl

private theorem foldl_some (hs : List α) (w : α) :
    hs.foldl (fun w h => if versionGt (ver h) (w.elim .ZERO ver) then some h else w) (some w) =
      some (hs.foldl (fun w h => if versionGt (ver h) (ver w) then h else w) w) := by
  induction hs generalizing w with
  | nil => rfl
  | cons h hs ih =>
    rw [List.foldl_cons, List.foldl_cons, ← ih]
    congr 1
    show (if versionGt (ver h) (ver w) then some h else some w) = _
    split <;> rfl

/-- The winner is beaten by none. -/
theorem pickWinner_spec (hpos : ∀ h ∈ hs, 0 < (ver h).seq)
    (hr : Ranked (fun a b => versionGt (ver a) (ver b) = true) hs) :
    hs = [] ∧ pickWinner ver hs = none ∨
      ∃ w, pickWinner ver hs = some w ∧ Unbeaten (fun a b => versionGt (ver a) (ver b) = true) hs w := by
  cases hs with
  | nil => exact Or.inl ⟨rfl, rfl⟩
  | cons h hs =>
    right
    have hfirst : Unbeaten (fun a b => versionGt (ver a) (ver b) = true) [h] h := by
      refine ⟨List.mem_singleton_self h, fun b hb => ?_⟩
      rw [List.mem_singleton.mp hb]
      exact hr.irrefl h List.mem_cons_self
    have hsplit : Ranked (fun a b => versionGt (ver a) (ver b) = true) ([h] ++ hs) := hr
    refine ⟨_, ?_, hsplit.foldl_unbeaten hfirst⟩
    have hgt : versionGt (ver h) .ZERO = true := Version.versionGt_zero (hpos h List.mem_cons_self) rfl
    unfold pickWinner
    rw [List.foldl_cons, Option.elim_none, if_pos hgt]
    exact foldl_some hs h

/-- Winners of lists that agree one by one in their versions. -/
theorem pickWinner_forall₂ {β : Type} {R : α → β → Prop} {ver' : β → Version} {hs' : List β}
    (hR : ∀ a b, R a b → ver a = ver' b) (h : List.Forall₂ R hs hs') :
    Option.Rel R (pickWinner ver hs) (pickWinner ver' hs') := by
  suffices hgen : ∀ w w', Option.Rel R w w' → Option.Rel R
      (hs.foldl (fun w h => if versionGt (ver h) (w.elim .ZERO ver) then some h else w) w)
      (hs'.foldl (fun w h => if versionGt (ver' h) (w.elim .ZERO ver') then some h else w) w') from hgen _ _ .none
  induction h with
  | nil => exact fun w w' hw => hw
  | cons hab _ ih =>
    intro w w' hw
    rw [List.foldl_cons, List.foldl_cons]
    apply ih
    have hver : w.elim .ZERO ver = w'.elim .ZERO ver' := by
      cases hw with
      | none => rfl
      | some hw => exact hR _ _ hw
    rw [hver, hR _ _ hab]
    split
    · exact .some hab
    · exact hw

end Winner

/-! ### Ranked sources -/

/-- Where the merge rule ranks the versions, a scan shows what the sources reply. -/
theorem replies_shown (hd : Version.Distinct (ss.flatMap Source.versions))
    (hr : Ranked (versionGt · ·) (ss.flatMap Source.versions)) :
    Replies ss valBuf now (match shown ss now with
      | none => .ok none
      | some v => if v.length > valBuf then .error (.bufferTooSmall v.length) else .ok (some v)) := by
  have hpos : ∀ h ∈ ss.filterMap Source.hit, 0 < h.ver.seq := fun h hh => hd.pos _ (ver_mem hh)
  have hheads := (hr.subset (hits_sublist ss).subset).of_map (hits_nodup hd)
  unfold shown
  rcases pickWinner_spec hpos hheads with ⟨hnil, hwin⟩ | ⟨w, hwin, hw⟩
  · rw [hwin]
    refine Or.inl ⟨fun s hs => ?_, rfl⟩
    cases hh : s.hit with
    | none => rfl
    | some h =>
      have hmem : h ∈ ss.filterMap Source.hit := List.mem_filterMap.mpr ⟨s, hs, hh⟩
      rw [hnil] at hmem
      cases hmem
  · rw [hwin]
    refine Or.inr ⟨w, hw, ?_⟩
    have hseq : ¬w.ver.seq = 0 := by
      have := hpos w hw.1
      omega
    have hcond : (w.tombstone || hidden ss w.ver || decide (w.expireAt ≠ 0 ∧ w.expireAt ≤ now)) = true ↔
        (w.ver.seq = 0 ∨ w.tombstone ∨ hidden ss w.ver ∨ (w.expireAt ≠ 0 ∧ w.expireAt ≤ now)) := by
      simp only [Bool.or_eq_true, decide_eq_true_eq, or_assoc, hseq, false_or]
    unfold reply
    dsimp only
    by_cases hc : w.ver.seq = 0 ∨ w.tombstone ∨ hidden ss w.ver ∨ (w.expireAt ≠ 0 ∧ w.expireAt ≤ now)
    · rw [if_pos hc, if_pos (hcond.mpr hc)]
    · rw [if_neg hc, if_neg (mt hcond.mp hc)]

namespace Scans

variable {sh : Shape} {blocks : Nat → Bytes} {c : Contents} {key : Bytes} {maxSeq keyBuf : Nat} {db : Db}

/-- The head `h` stands for the version `hit`. -/
structure Head.For (sh : Shape) (blocks : Nat → Bytes) (h : Head) (hit : Hit) : Prop where
  ver : h.ver = hit.ver
  tombstone : h.tombstone = hit.tombstone
  val : hit.tombstone = false → h.valLen = hit.val.length ∧ h.expireAt = hit.expireAt ∧
    (h.place.load sh).eval blocks = .ok hit.val

/-- The second pass gives what the sources of the key show. -/
theorem resolve_spec (hc : ∀ t ∈ db.scanOrder sh, c.On sh blocks t) {heads : List Head}
    (hh : List.Forall₂ (Head.For sh blocks) heads ((db.sourcesAt sh c key maxSeq).filterMap Source.hit)) :
    (resolve sh db heads key maxSeq now keyBuf valBuf).eval blocks =
      match shown (db.sourcesAt sh c key maxSeq) now with
      | none => .ok (.hide key)
      | some v =>
        if key.length > keyBuf then .error (.bufferTooSmall key.length)
        else if v.length > valBuf then .error (.bufferTooSmall v.length)
        else .ok (.give key v) := by
  have hwin : Option.Rel (Head.For sh blocks) (pickWinner Head.ver heads)
      (pickWinner Hit.ver ((db.sourcesAt sh c key maxSeq).filterMap Source.hit)) :=
    pickWinner_forall₂ (fun _ _ hab => hab.ver) hh
  unfold resolve shown
  rw [Reads.eval_bind, Db.rdelHides_spec hc]
  dsimp only [Except.bind]
  revert hwin
  cases pickWinner Head.ver heads with
  | none =>
    cases pickWinner Hit.ver ((db.sourcesAt sh c key maxSeq).filterMap Source.hit) with
    | none => exact fun _ => rfl
    | some w => exact fun h => by cases h
  | some w =>
    cases pickWinner Hit.ver ((db.sourcesAt sh c key maxSeq).filterMap Source.hit) with
    | none => exact fun h => by cases h
    | some w' =>
      intro h
      obtain hw : Head.For sh blocks w w' := by
        cases h with
        | some h => exact h
      dsimp only
      rw [Option.elim_some, hw.ver, hw.tombstone]
      cases ht : w'.tombstone with
      | true => simp
      | false =>
        obtain ⟨hlen, hexp, hload⟩ := hw.val ht
        rw [hlen, hexp]
        have hcond : (decide (w'.ver.seq = 0) || false || hidden (db.sourcesAt sh c key maxSeq) w'.ver ||
            (!false && decide (w'.expireAt ≠ 0) && decide (w'.expireAt ≤ now))) = true ↔
            (w'.ver.seq = 0 ∨ false = true ∨ hidden (db.sourcesAt sh c key maxSeq) w'.ver = true ∨
              (w'.expireAt ≠ 0 ∧ w'.expireAt ≤ now)) := by
          simp [or_assoc]
        by_cases hhide : w'.ver.seq = 0 ∨ false = true ∨ hidden (db.sourcesAt sh c key maxSeq) w'.ver = true ∨
            (w'.expireAt ≠ 0 ∧ w'.expireAt ≤ now)
        · rw [if_pos hhide, if_pos (hcond.mpr hhide)]
          rfl
        · rw [if_neg hhide, if_neg (mt hcond.mp hhide)]
          dsimp only
          split
          · rfl
          · split
            · rfl
            · rw [Reads.eval_bind, hload]
              rfl

end Scans

end Horton
