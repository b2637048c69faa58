import Horton.Compact.RdelJob
import Horton.Lib.OpenSpans

/-!
# Coverage

While a compaction merges keys, a second pass over the merged range tombstones tells for each key the highest sequence
number of a tombstone around it that every live snapshot sees: the versions below it are dropped.  It tracks at most
`COVER_ACTIVE` open tombstones.  When one more opens it lets go of one and notes where that one is missed, and tombstones
that reach there stay in the outputs.

`Covering` says where the pass stands; every key finds what the tombstones of the job say, except where it is noted
(`coverKey_spec`).
-/

namespace Horton

open BlockDev Sstable

def COVER_ACTIVE : Nat := 8

def INEXACT_RANGES : Nat := 4

/-- Where the coverage stream stands: the next merged tombstone is still to be pulled, or it lies behind the current key, or
none is left. -/
inductive CoverState
  | pull
  | look (r : OwnedRdel)
  | done
  deriving DecidableEq, Repr

/-- Behind a pull. -/
def CoverState.pulled : Option OwnedRdel → CoverState
  | some r => .look r
  | none => .done

/-- The coverage stream of a job; `inexact` is `none` when it has lost track everywhere. -/
structure Coverage where
  cover : RdelMerger
  coverState : CoverState
  active : List OwnedRdel
  inexact : Option (List (Bytes × Bytes))
  deriving DecidableEq, Repr

namespace Coverage

/-- The stream over the sections of all inputs of a job. -/
def start (j : RdelJob) (hasRdels : Bool) : Coverage where
  cover := RdelMerger.new j.sources 0 (!j.tgt.isEmpty) false j.oldestSnapshot
  coverState := if hasRdels then .pull else .done
  active := []
  inexact := some []

variable (sh : Shape)

/-- Notes that a tombstone that ends at `hi` is let go of at the key `lo`. -/
def evict (inexact : Option (List (Bytes × Bytes))) (lo hi : Bytes) : Option (List (Bytes × Bytes)) :=
  if lo.length > sh.KEY_MAX ∨ hi.length > sh.KEY_MAX then none
  else inexact.map fun rs => addRange INEXACT_RANGES rs lo hi

/-- The first of the open tombstones with the lowest sequence number, and its index. -/
def oldestActive (active : List OwnedRdel) : Option (OwnedRdel × Nat) :=
  active.zipIdx.foldl (fun m x => if m.all fun best => x.1.seq < best.1.seq then some x else m) none

/-- Tracks the tombstone `r`, which starts at or below the key. -/
def track (oldest : Nat) (key : Bytes) (r : OwnedRdel) (t : Coverage) : Coverage :=
  -- Some snapshot cannot see it, or it ends before the key.
  if r.seq ≥ oldest ∨ r.stop ≤ key then t
  else if t.active.any fun a => a.seq ≥ r.seq && a.stop ≥ r.stop then t
  else
    let active := swapRemove (fun a => decide (a.seq ≤ r.seq) && decide (a.stop ≤ r.stop)) t.active.length t.active
    match if active.length < COVER_ACTIVE then none else oldestActive active with
    | none => { t with active := active ++ [r] }
    | some (old, i) =>
      if r.seq > old.seq then { t with active := active.set i r, inexact := evict sh t.inexact key old.stop }
      else { t with active := active, inexact := evict sh t.inexact key r.stop }

variable (targets : TargetView) (readFuel : Nat) (oldest : Nat)

/-- Pulls the next merged tombstone, unless it is there. -/
def pullNext (fuel : Nat) (t : Coverage) : Reads Error Coverage :=
  match t.coverState with
  | .pull => do
    let (entry, cover) ← t.cover.nextMerged sh targets readFuel fuel
    return { t with cover := cover, coverState := .pulled entry }
  | _ => pure t

/-- Tracks every tombstone that starts at or below the key. -/
def pullThrough (key : Bytes) : Nat → Coverage → Reads Error Coverage
  | 0, t => pure t
  | fuel + 1, t => do
    let t ← t.pullNext sh targets readFuel fuel
    match t.coverState with
    | .look r =>
      if r.start > key then pure t else pullThrough key fuel ({ t with coverState := .pull }.track sh oldest key r)
    | _ => pure t

/-- Moves the stream on to `key`; the highest sequence number of a tombstone around it that every reader sees, or `0`. -/
def coverKey (fuel : Nat) (key : Bytes) (t : Coverage) : Reads Error (Nat × Coverage) :=
  if t.coverState = .done ∧ t.active = [] then pure (0, t)
  else do
    let active := swapRemove (fun a => decide (a.stop ≤ key)) t.active.length t.active
    let t ← pullThrough sh targets readFuel oldest key fuel { t with active := active }
    return (Span.top t.active, t)

end Coverage

/-! ### Dropping tombstones -/

/-- The gates of a bottommost output against what lies outside of the job: its node and its greatest wall clock, the lowest
sequence number of a table of its own node, and the least version of a table of another one. -/
structure DropOrigin where
  node : Nat
  maxWall : Nat
  outsideSameMin : Nat
  outsideForeignMin : Nat × Nat
  deriving DecidableEq, Repr

namespace DropOrigin

/-- A version of the job's node hides nothing outside of the job. -/
def clear (o : DropOrigin) (wall seq : Nat) : Bool :=
  decide (seq < o.outsideSameMin) &&
    (decide (wall < o.outsideForeignMin.1) || decide (wall = o.outsideForeignMin.1) && decide (o.node < o.outsideForeignMin.2))

end DropOrigin

structure RdelDrop where
  origin : DropOrigin
  snapshotFloor : Nat
  inexact : List (Bytes × Bytes)
  deriving DecidableEq, Repr

namespace RdelDrop

def new (bottommost : Bool) (oldestSnapshot : Nat) (origin : DropOrigin) (inexact : Option (List (Bytes × Bytes))) :
    RdelDrop :=
  match bottommost, inexact with
  | true, some rs => ⟨origin, oldestSnapshot, rs⟩
  | _, rs => ⟨{ origin with outsideSameMin := U64_MAX, outsideForeignMin := (U64_MAX, U32_MAX) }, 0, rs.getD []⟩

/-- Whether the piece `[start, stop)` may leave the output. -/
def drops (r : RdelDrop) (start stop : Bytes) (seq : Nat) : Bool :=
  decide (seq < r.snapshotFloor) && r.origin.clear r.origin.maxWall seq &&
    r.inexact.all fun x => decide (stop ≤ x.1) || decide (x.2 ≤ start)

end RdelDrop

namespace RdelDrop

/-- What a piece that may leave has passed; it lies beside every range noted. -/
theorem drops_new {bottommost : Bool} {oldest seq : Nat} {origin : DropOrigin} {inexact : Option (List (Bytes × Bytes))}
    {start stop : Bytes} (h : (RdelDrop.new bottommost oldest origin inexact).drops start stop seq = true) :
    ∃ rs, inexact = some rs ∧ seq < oldest ∧ origin.clear origin.maxWall seq = true ∧
      ∀ x ∈ rs, stop ≤ x.1 ∨ x.2 ≤ start := by
  unfold drops new at h
  rw [Bool.and_eq_true, Bool.and_eq_true, decide_eq_true_eq] at h
  obtain ⟨⟨hfloor, hclear⟩, hmiss⟩ := h
  cases bottommost with
  | false => exact absurd hfloor (Nat.not_lt_zero _)
  | true =>
    cases inexact with
    | none => exact absurd hfloor (Nat.not_lt_zero _)
    | some rs =>
      refine ⟨rs, rfl, hfloor, hclear, ?_⟩
      intro x hx
      have hapart := List.all_eq_true.mp hmiss x hx
      rw [Bool.or_eq_true, decide_eq_true_eq, decide_eq_true_eq] at hapart
      exact hapart

end RdelDrop

/-! ### The stream -/

namespace RdelMerger

variable {sh : Shape} {blocks : Nat → Bytes} {targets : TargetView} {readFuel : Nat}

theorem setPending_of_keeps (heads : List RdelHead) (pending last : Option OwnedRdel) (oldest : Nat) (e : OwnedRdel) :
    RdelMerger.setPending ⟨heads, pending, last, false, oldest⟩ e = ⟨heads, some e, last, false, oldest⟩ := rfl

/-- A merger that is not at the bottom leaves nothing out, so the oldest snapshot does not matter to it. -/
theorem nextMerged_oldest {m : RdelMerger} (h : m.bottommost = false) (oldest fuel : Nat) :
    ({ m with oldestSnapshot := oldest }.nextMerged sh targets readFuel fuel).eval blocks =
      ((m.nextMerged sh targets readFuel fuel).eval blocks).map fun x => (x.1, { x.2 with oldestSnapshot := oldest }) := by
  induction fuel generalizing m with
  | zero => rfl
  | succ fuel ih =>
    obtain ⟨heads, pending, last, bottommost, old⟩ := m
    obtain rfl : bottommost = false := h
    rw [nextMerged, nextMerged, Reads.eval_bind, Reads.eval_bind]
    dsimp only
    cases (fillAll sh targets readFuel heads).eval blocks with
    | error e => rfl
    | ok heads =>
      dsimp only [Except.bind]
      cases minHead heads with
      | none => cases pending <;> rfl
      | some x =>
        obtain ⟨mi, e⟩ := x
        cases pending with
        | none =>
          dsimp only
          rw [setPending_of_keeps, setPending_of_keeps]
          exact ih (m := RdelMerger.takeHead ⟨heads, some e, last, false, old⟩ mi) rfl
        | some p =>
          dsimp only
          by_cases hjoin : e.seq = p.seq ∧ e.start ≤ p.stop
          · rw [if_pos hjoin, if_pos hjoin]
            exact ih (m := RdelMerger.takeHead ⟨heads, some (p.join e), last, false, old⟩ mi) rfl
          · rw [if_neg hjoin, if_neg hjoin, setPending_of_keeps, setPending_of_keeps]
            rfl

theorem nextMerged_keeps {m m' : RdelMerger} {entry : Option OwnedRdel} (h : m.bottommost = false) {fuel : Nat}
    (hrun : (m.nextMerged sh targets readFuel fuel).eval blocks = .ok (entry, m')) : m'.bottommost = false := by
  induction fuel generalizing m with
  | zero =>
    obtain ⟨-, rfl⟩ := Prod.mk.inj (Except.ok.inj hrun)
    exact h
  | succ fuel ih =>
    obtain ⟨heads, pending, last, bottommost, old⟩ := m
    obtain rfl : bottommost = false := h
    rw [nextMerged, Reads.eval_bind] at hrun
    dsimp only at hrun
    cases hfill : (fillAll sh targets readFuel heads).eval blocks with
    | error e =>
      rw [hfill] at hrun
      cases hrun
    | ok heads =>
      rw [hfill] at hrun
      dsimp only [Except.bind] at hrun
      cases hmin : minHead heads with
      | none =>
        rw [hmin] at hrun
        cases pending with
        | none =>
          obtain ⟨-, rfl⟩ := Prod.mk.inj (Except.ok.inj hrun)
          rfl
        | some p =>
          obtain ⟨-, rfl⟩ := Prod.mk.inj (Except.ok.inj hrun)
          rfl
      | some x =>
        obtain ⟨mi, e⟩ := x
        rw [hmin] at hrun
        cases pending with
        | none =>
          dsimp only at hrun
          rw [setPending_of_keeps] at hrun
          exact ih (m := RdelMerger.takeHead ⟨heads, some e, last, false, old⟩ mi) rfl hrun
        | some p =>
          dsimp only at hrun
          by_cases hjoin : e.seq = p.seq ∧ e.start ≤ p.stop
          · rw [if_pos hjoin] at hrun
            exact ih (m := RdelMerger.takeHead ⟨heads, some (p.join e), last, false, old⟩ mi) rfl hrun
          · rw [if_neg hjoin, setPending_of_keeps] at hrun
            obtain ⟨-, rfl⟩ := Prod.mk.inj (Except.ok.inj hrun)
            rfl

end RdelMerger

/-! ### Letting go -/

/-- The ranges where a tombstone may be missed hold `x`. -/
def Lost (inexact : Option (List (Bytes × Bytes))) (x : Bytes) : Prop :=
  match inexact with
  | none => True
  | some rs => InRanges rs x

namespace Coverage

variable {sh : Shape} {blocks : Nat → Bytes} {targets : TargetView} {oldest : Nat} {all seen : List OwnedRdel}
  {rest : List (List OwnedRdel)} {t t' : Coverage} {k key lo hi : Bytes} {r : OwnedRdel}

/-- No range noted starts above `lo`. -/
def Below (inexact : Option (List (Bytes × Bytes))) (lo : Bytes) : Prop := ∀ rs ∈ inexact, ∀ r ∈ rs, r.1 ≤ lo

theorem evict_spec (sh : Shape) {inexact : Option (List (Bytes × Bytes))} (h : Below inexact lo) (hi : Bytes) :
    Below (evict sh inexact lo hi) lo ∧ ∀ x, Lost inexact x ∨ lo ≤ x ∧ x < hi → Lost (evict sh inexact lo hi) x := by
  unfold evict
  by_cases hlong : lo.length > sh.KEY_MAX ∨ hi.length > sh.KEY_MAX
  · rw [if_pos hlong]
    constructor
    · intro rs hrs
      cases hrs
    · exact fun _ _ => trivial
  · rw [if_neg hlong]
    cases inexact with
    | none =>
      constructor
      · intro rs hrs
        cases hrs
      · exact fun _ _ => trivial
    | some rs =>
      obtain ⟨hbelow, hranges⟩ := addRange_spec INEXACT_RANGES (h rs rfl) hi
      constructor
      · intro rs' hrs'
        obtain rfl := Option.some.inj hrs'
        exact hbelow
      · exact hranges

theorem oldestActive_some {active : List OwnedRdel} {x : OwnedRdel × Nat} (h : oldestActive active = some x) :
    active[x.2]? = some x.1 := by
  -- The fold only ever picks elements of the list.
  have hmem : ∀ (l : List (OwnedRdel × Nat)) (m : Option (OwnedRdel × Nat)),
      l.foldl (fun m x => if m.all fun best => x.1.seq < best.1.seq then some x else m) m = some x → m = some x ∨ x ∈ l := by
    intro l
    induction l with
    | nil => exact fun m hm => Or.inl hm
    | cons a l ih =>
      intro m hm
      rw [List.foldl_cons] at hm
      rcases ih _ hm with hm | hx
      · split at hm
        · exact Or.inr (Option.some.inj hm ▸ List.mem_cons_self)
        · exact Or.inl hm
      · exact Or.inr (List.mem_cons_of_mem a hx)
  rcases hmem _ none h with hc | hx
  · cases hc
  · obtain ⟨a, i⟩ := x
    exact List.mk_mem_zipIdx_iff_getElem?.mp hx

theorem mem_set_or {l : List OwnedRdel} {a : OwnedRdel} (h : a ∈ l) (i : Nat) (r : OwnedRdel) :
    a ∈ l.set i r ∨ l[i]? = some a := by
  obtain ⟨j, hj⟩ := List.mem_iff_getElem?.mp h
  by_cases hij : i = j
  · exact Or.inr (hij ▸ hj)
  · left
    apply List.mem_iff_getElem?.mpr
    exact ⟨j, by rw [List.getElem?_set_ne hij, hj]⟩

/-- What tracking a tombstone leaves. -/
structure Tracked (oldest : Nat) (key : Bytes) (seen : List OwnedRdel) (t t' : Coverage) : Prop where
  cover : t'.cover = t.cover
  coverState : t'.coverState = t.coverState
  tracks : Span.Tracks (seen.filter fun s => decide (s.seq < oldest)) t'.active (Lost t'.inexact) key
  isOpen : ∀ a ∈ t'.active, key < a.stop
  below : Below t'.inexact key
  lost : ∀ x, Lost t.inexact x → Lost t'.inexact x

theorem filter_concat_of_seen (hseq : ¬oldest ≤ r.seq) : (seen ++ [r]).filter (fun s => decide (s.seq < oldest)) =
    seen.filter (fun s => decide (s.seq < oldest)) ++ [r] := by
  rw [List.filter_append, List.filter_cons_of_pos (by simpa using hseq), List.filter_nil]

theorem track_spec (sh : Shape)
    (ht : Span.Tracks (seen.filter fun s => decide (s.seq < oldest)) t.active (Lost t.inexact) key)
    (ho : ∀ a ∈ t.active, key < a.stop) (hb : Below t.inexact key) (hr : r.start ≤ key) :
    Tracked oldest key (seen ++ [r]) t (track sh oldest key r t) := by
  unfold track
  by_cases hskip : r.seq ≥ oldest ∨ r.stop ≤ key
  · rw [if_pos hskip]
    refine ⟨rfl, rfl, ?_, ho, hb, fun _ h => h⟩
    by_cases hseq : oldest ≤ r.seq
    · rw [List.filter_append, List.filter_cons_of_neg (by simpa using hseq), List.filter_nil, List.append_nil]
      exact ht
    · rw [filter_concat_of_seen hseq]
      exact ht.ended (hskip.resolve_left hseq)
  rw [if_neg hskip]
  obtain ⟨hseq, hstop⟩ := not_or.mp hskip
  rw [ge_iff_le] at hseq
  by_cases hdom : (t.active.any fun a => a.seq ≥ r.seq && a.stop ≥ r.stop) = true
  · rw [if_pos hdom]
    obtain ⟨a, ha, hge⟩ := List.any_eq_true.mp hdom
    simp only [ge_iff_le, Bool.and_eq_true, decide_eq_true_eq] at hge
    refine ⟨rfl, rfl, ?_, ho, hb, fun _ h => h⟩
    rw [filter_concat_of_seen hseq]
    exact ht.dominated ha hge.1 hge.2
  rw [if_neg hdom]
  generalize hactive : swapRemove (fun a => decide (a.seq ≤ r.seq) && decide (a.stop ≤ r.stop)) t.active.length t.active = active
  have hmem : ∀ a, a ∈ active ↔ a ∈ t.active ∧ ¬(a.seq ≤ r.seq ∧ a.stop ≤ r.stop) := by
    intro a
    rw [← hactive, mem_swapRemove]
    simp
  -- With the new one among them the open tombstones stand for all; one of these is let go of when there are too many.
  have hopened : Span.Tracks ((seen ++ [r]).filter fun s => decide (s.seq < oldest)) (active ++ [r]) (Lost t.inexact) key := by
    rw [filter_concat_of_seen hseq]
    apply ht.opened hr
    intro a
    rw [List.mem_append, List.mem_singleton, hmem]
    exact or_comm
  have hends : ∀ a ∈ active ++ [r], key < a.stop := by
    intro a ha
    rcases List.mem_append.mp ha with ha | ha
    · exact ho a ((hmem a).mp ha).1
    · rw [List.mem_singleton.mp ha]
      exact not_le.mp hstop
  dsimp only
  cases hfull : if active.length < COVER_ACTIVE then none else oldestActive active with
  | none => exact ⟨rfl, rfl, hopened, hends, hb, fun _ h => h⟩
  | some x =>
    obtain ⟨old, i⟩ := x
    have hold : active[i]? = some old := by
      split at hfull
      · cases hfull
      · exact oldestActive_some hfull
    dsimp only
    by_cases hnewer : r.seq > old.seq
    · rw [if_pos hnewer]
      obtain ⟨hbelow, hlost⟩ := evict_spec sh hb old.stop
      have hsub : ∀ a ∈ active.set i r, a ∈ active ++ [r] := by
        intro a ha
        rcases List.mem_or_eq_of_mem_set ha with ha | rfl
        · exact List.mem_append_left _ ha
        · simp
      refine ⟨rfl, rfl, hopened.forget hsub ?_ fun x hx => hlost x (Or.inl hx), fun a ha => hends a (hsub a ha), hbelow,
        fun x hx => hlost x (Or.inl hx)⟩
      intro a ha
      rcases List.mem_append.mp ha with ha | ha
      · rcases mem_set_or ha i r with ha | ha
        · exact Or.inl ha
        · obtain rfl := Option.some.inj (hold.symm.trans ha)
          exact Or.inr fun x hx hlt => hlost x (Or.inr ⟨hx, hlt⟩)
      · rw [List.mem_singleton.mp ha]
        have hi := (List.getElem?_eq_some_iff.mp hold).1
        exact Or.inl (List.mem_iff_getElem?.mpr ⟨i, by rw [List.getElem?_set_self hi]⟩)
    · rw [if_neg hnewer]
      obtain ⟨hbelow, hlost⟩ := evict_spec sh hb r.stop
      refine ⟨rfl, rfl, hopened.forget (fun a ha => List.mem_append_left _ ha) ?_ fun x hx => hlost x (Or.inl hx),
        fun a ha => hends a (List.mem_append_left _ ha), hbelow, fun x hx => hlost x (Or.inl hx)⟩
      intro a ha
      rcases List.mem_append.mp ha with ha | ha
      · exact Or.inl ha
      · rw [List.mem_singleton.mp ha]
        exact Or.inr fun x hx hlt => hlost x (Or.inr ⟨hx, hlt⟩)

/-! ### The pass -/

/-- The tombstone pulled ahead of the key. -/
def ahead (t : Coverage) : List OwnedRdel :=
  match t.coverState with
  | .look r => [r]
  | _ => []

/-- At the key `key`, the pass over the tombstones `all` has tracked `seen`, and its streams have `rest` left. -/
structure Covering (sh : Shape) (blocks : Nat → Bytes) (targets : TargetView) (oldest : Nat) (all : List OwnedRdel)
    (key : Bytes) (t : Coverage) (rest : List (List OwnedRdel)) (seen : List OwnedRdel) : Prop where
  holds : RdelMerger.Holds sh blocks targets 0 all { t.cover with oldestSnapshot := 0 } rest (seen ++ t.ahead)
  keeps : t.cover.bottommost = false
  tracks : Span.Tracks (seen.filter fun s => decide (s.seq < oldest)) t.active (Lost t.inexact) key
  below : Below t.inexact key
  finished : t.coverState = .done → rest.flatten = [] ∧ t.cover.pending = none

/-- The tombstones not yet tracked. -/
def weight (t : Coverage) (rest : List (List OwnedRdel)) : Nat := t.cover.weight rest + t.ahead.length

theorem pullNext_spec (h : Covering sh blocks targets oldest all key t rest seen) : ∃ n t' rest',
    Covering sh blocks targets oldest all key t' rest' seen ∧ t'.coverState ≠ .pull ∧ t'.active = t.active ∧
      t'.inexact = t.inexact ∧ t'.weight rest' ≤ t.weight rest ∧
      ∀ readFuel ≥ n, ∀ fuel ≥ n, (t.pullNext sh targets readFuel fuel).eval blocks = .ok t' := by
  cases hs : t.coverState with
  | look r =>
    refine ⟨0, t, rest, h, by simp [hs], rfl, rfl, le_rfl, fun _ _ _ _ => ?_⟩
    unfold pullNext
    rw [hs]
    rfl
  | done =>
    refine ⟨0, t, rest, h, by simp [hs], rfl, rfl, le_rfl, fun _ _ _ _ => ?_⟩
    unfold pullNext
    rw [hs]
    rfl
  | pull =>
    have hahead : t.ahead = [] := by
      unfold ahead
      rw [hs]
    have hholds := h.holds
    rw [hahead, List.append_nil] at hholds
    obtain ⟨n, m', rest', out', res, hm', hnext, hfuel⟩ := RdelMerger.nextMerged_spec hholds
    -- The merger of the stream, with its own oldest snapshot.
    have hrun : ∀ readFuel ≥ n, ∀ fuel ≥ n, (t.cover.nextMerged sh targets readFuel fuel).eval blocks =
        .ok (res, { m' with oldestSnapshot := t.cover.oldestSnapshot }) := by
      intro readFuel hread fuel hle
      have hown : (t.cover.nextMerged sh targets readFuel fuel).eval blocks = _ :=
        RdelMerger.nextMerged_oldest (m := { t.cover with oldestSnapshot := 0 }) h.keeps t.cover.oldestSnapshot fuel
      rw [hfuel readFuel hread fuel hle] at hown
      exact hown
    have hkeeps : m'.bottommost = false :=
      RdelMerger.nextMerged_keeps (m := { t.cover with oldestSnapshot := 0 }) h.keeps (hfuel n le_rfl n le_rfl)
    have hrest : ({ m' with oldestSnapshot := 0 } : RdelMerger) = m' := by
      have := hm'.oldest_eq
      obtain ⟨heads, pending, last, bottommost, old⟩ := m'
      obtain rfl : old = 0 := this
      rfl
    refine ⟨n, { t with cover := { m' with oldestSnapshot := t.cover.oldestSnapshot }, coverState := .pulled res }, rest',
      ⟨?_, hkeeps, h.tracks, h.below, ?_⟩, ?_, rfl, rfl, ?_, ?_⟩
    · cases res with
      | none =>
        obtain ⟨rfl, -, -⟩ := hnext
        show RdelMerger.Holds sh blocks targets 0 all { m' with oldestSnapshot := 0 } rest' (out' ++ [])
        rw [hrest, List.append_nil]
        exact hm'
      | some r =>
        obtain ⟨rfl, -⟩ := hnext
        show RdelMerger.Holds sh blocks targets 0 all { m' with oldestSnapshot := 0 } rest' (seen ++ [r])
        rw [hrest]
        exact hm'
    · cases res with
      | none =>
        obtain ⟨-, hnil, hpend⟩ := hnext
        exact fun _ => ⟨hnil, hpend⟩
      | some r => intro hc; cases hc
    · cases res <;> simp [CoverState.pulled]
    · cases res with
      | none =>
        obtain ⟨-, hnil, hpend⟩ := hnext
        show (rest'.flatten.length + m'.pending.toList.length) + 0 ≤ _
        rw [hnil, hpend]
        exact Nat.zero_le _
      | some r =>
        obtain ⟨-, hlt⟩ := hnext
        show (rest'.flatten.length + m'.pending.toList.length) + 1 ≤ t.cover.weight rest + t.ahead.length
        rw [hahead]
        exact hlt
    · intro readFuel hread fuel hle
      unfold pullNext
      rw [hs]
      dsimp only
      rw [Reads.eval_bind, hrun readFuel hread fuel hle]
      rfl

/-- Every tombstone that starts at or below the key is tracked. -/
theorem pullThrough_spec (h : Covering sh blocks targets oldest all key t rest seen) (ho : ∀ a ∈ t.active, key < a.stop) :
    ∃ n t' rest' seen', Covering sh blocks targets oldest all key t' rest' seen' ∧ (∀ a ∈ t'.active, key < a.stop) ∧
      (∀ r ∈ t'.ahead, key < r.start) ∧ t'.coverState ≠ .pull ∧ (∀ x, Lost t.inexact x → Lost t'.inexact x) ∧
      ∀ readFuel ≥ n, ∀ fuel ≥ n, (pullThrough sh targets readFuel oldest key fuel t).eval blocks = .ok t' := by
  -- Every turn tracks one tombstone, until one starts above the key.
  obtain ⟨w, hw⟩ : ∃ w, w = t.weight rest := ⟨_, rfl⟩
  induction w using Nat.strong_induction_on generalizing t rest seen with
  | _ w ih =>
  obtain ⟨n, t₁, rest₁, h₁, hpull, hactive, hinexact, hweight, hfuel⟩ := pullNext_spec h
  have ho₁ : ∀ a ∈ t₁.active, key < a.stop := by
    rw [hactive]
    exact ho
  have hlost₁ : ∀ x, Lost t.inexact x → Lost t₁.inexact x := by
    rw [hinexact]
    exact fun _ hx => hx
  cases hs : t₁.coverState with
  | pull => exact absurd hs hpull
  | done =>
    have hahead : t₁.ahead = [] := by
      unfold ahead
      rw [hs]
    refine ⟨n + 1, t₁, rest₁, seen, h₁, ho₁, by simp [hahead], hpull, hlost₁, fun readFuel hread fuel hle => ?_⟩
    obtain ⟨f, rfl⟩ : ∃ f, fuel = f + 1 := ⟨fuel - 1, by omega⟩
    rw [pullThrough, Reads.eval_bind, hfuel readFuel (by omega) f (by omega)]
    dsimp only [Except.bind]
    rw [hs]
    rfl
  | look r =>
    have hahead : t₁.ahead = [r] := by
      unfold ahead
      rw [hs]
    by_cases hbeyond : r.start > key
    · refine ⟨n + 1, t₁, rest₁, seen, h₁, ho₁, by simpa [hahead] using hbeyond, hpull, hlost₁, fun readFuel hread fuel hle => ?_⟩
      obtain ⟨f, rfl⟩ : ∃ f, fuel = f + 1 := ⟨fuel - 1, by omega⟩
      rw [pullThrough, Reads.eval_bind, hfuel readFuel (by omega) f (by omega)]
      dsimp only [Except.bind]
      rw [hs]
      dsimp only
      rw [if_pos hbeyond]
      rfl
    · have hholds := h₁.holds
      rw [hahead] at hholds
      have htracked := track_spec sh (t := { t₁ with coverState := .pull }) h₁.tracks ho₁ h₁.below (not_lt.mp hbeyond)
      generalize hnext : track sh oldest key r { t₁ with coverState := .pull } = t₂ at htracked
      have hahead₂ : t₂.ahead = [] := by
        unfold ahead
        rw [htracked.coverState]
      have h₂ : Covering sh blocks targets oldest all key t₂ rest₁ (seen ++ [r]) := by
        refine ⟨?_, ?_, htracked.tracks, htracked.below, ?_⟩
        · rw [hahead₂, List.append_nil, htracked.cover]
          exact hholds
        · rw [htracked.cover]
          exact h₁.keeps
        · intro hc
          rw [htracked.coverState] at hc
          cases hc
      have hlt : t₂.weight rest₁ < w := by
        have heq : t₁.weight rest₁ = t₁.cover.weight rest₁ + 1 := by
          unfold weight
          rw [hahead]
          rfl
        unfold weight
        rw [hahead₂, htracked.cover, hw]
        show t₁.cover.weight rest₁ + 0 < _
        omega
      obtain ⟨n', t', rest', seen', h', ho', hbeyond', hpull', hlost', hfuel'⟩ := ih _ hlt h₂ htracked.isOpen rfl
      refine ⟨max n n' + 1, t', rest', seen', h', ho', hbeyond', hpull',
        fun x hx => hlost' x (htracked.lost x (hlost₁ x hx)), fun readFuel hread fuel hle => ?_⟩
      obtain ⟨f, rfl⟩ : ∃ f, fuel = f + 1 := ⟨fuel - 1, by omega⟩
      rw [pullThrough, Reads.eval_bind, hfuel readFuel (by omega) f (by omega)]
      dsimp only [Except.bind]
      rw [hs]
      dsimp only
      rw [if_neg hbeyond, hnext]
      exact hfuel' readFuel (by omega) f (by omega)

/-- The highest sequence number that the open tombstones tell, once all that start at or below the key are tracked. -/
theorem Covering.answer (h : Covering sh blocks targets oldest all key t rest seen) (ho : ∀ a ∈ t.active, key < a.stop)
    (hbeyond : ∀ r ∈ t.ahead, key < r.start) (hpull : t.coverState ≠ .pull) :
    Span.top t.active ≤ Span.coverBelow oldest key all ∧
      (¬Lost t.inexact key → Span.top t.active = Span.coverBelow oldest key all) := by
  have hmerging := h.holds.merging
  -- What is still to come starts above the key.
  have hlater : ∀ s ∈ t.ahead ++ t.cover.pending.toList ++ rest.flatten, key < s.start := by
    cases hs : t.coverState with
    | pull => exact absurd hs hpull
    | done =>
      obtain ⟨hrest, hpend⟩ := h.finished hs
      have hahead : t.ahead = [] := by
        unfold ahead
        rw [hs]
      rw [hahead, hrest, hpend]
      intro s hs
      cases hs
    | look r =>
      have hahead : t.ahead = [r] := by
        unfold ahead
        rw [hs]
      rw [hahead] at hmerging hbeyond ⊢
      have hr : key < r.start := hbeyond r (List.mem_singleton_self r)
      have hsorted := hmerging.sorted
      unfold Span.Sorted at hsorted
      have hpending := (List.pairwise_append.mp hsorted).2.2 r (by simp)
      intro s hs
      rcases List.mem_append.mp hs with hs | hs
      · rcases List.mem_append.mp hs with hs | hs
        · rw [List.mem_singleton.mp hs]
          exact hr
        · exact lt_of_lt_of_le hr (hpending s hs)
      · exact lt_of_lt_of_le hr (hmerging.below r (by simp) s hs)
  have hall : Span.coverBelow oldest key all = Span.coverBelow oldest key (seen.filter fun s => decide (s.seq < oldest)) := by
    rw [← Span.coverBelow_congr oldest fun T => hmerging.alike T (Nat.zero_le T) key]
    apply le_antisymm
    · apply Span.coverBelow_le
      intro s hs hcov hseq
      rw [List.append_assoc, List.append_assoc, List.mem_append] at hs
      rcases hs with hs | hs
      · exact Span.le_coverBelow (List.mem_filter.mpr ⟨hs, decide_eq_true hseq⟩) hcov hseq
      · rw [← List.append_assoc] at hs
        exact absurd hcov.1 (not_le.mpr (hlater s hs))
    · apply Span.coverBelow_le
      intro s hs hcov hseq
      refine Span.le_coverBelow ?_ hcov hseq
      simp [(List.mem_filter.mp hs).1]
  have hfloor : ∀ s ∈ seen.filter fun s => decide (s.seq < oldest), s.seq < oldest :=
    fun s hs => of_decide_eq_true (List.mem_filter.mp hs).2
  rw [hall]
  exact ⟨h.tracks.top_le ho hfloor, h.tracks.top_eq ho hfloor⟩

/-- The pass moves on to a key and tells what the tombstones of the job say, or less where it is noted. -/
theorem coverKey_spec (h : Covering sh blocks targets oldest all k t rest seen) (hk : k ≤ key) : ∃ n c t' rest' seen',
    Covering sh blocks targets oldest all key t' rest' seen' ∧ c ≤ Span.coverBelow oldest key all ∧
      (¬Lost t'.inexact key → c = Span.coverBelow oldest key all) ∧ (∀ x, Lost t.inexact x → Lost t'.inexact x) ∧
      ∀ readFuel ≥ n, ∀ fuel ≥ n, (coverKey sh targets readFuel oldest fuel key t).eval blocks = .ok (c, t') := by
  have hbelow : Below t.inexact key := fun rs hrs r hr => le_trans (h.below rs hrs r hr) hk
  by_cases hdone : t.coverState = .done ∧ t.active = []
  · have hahead : t.ahead = [] := by
      unfold ahead
      rw [hdone.1]
    have htracks : Span.Tracks _ t.active _ key := h.tracks.expire hk (by simp [hdone.2])
    have hcov : Covering sh blocks targets oldest all key t rest seen := ⟨h.holds, h.keeps, htracks, hbelow, h.finished⟩
    obtain ⟨hle, heq⟩ := hcov.answer (by simp [hdone.2]) (by simp [hahead]) (by simp [hdone.1])
    rw [hdone.2] at hle heq
    refine ⟨0, 0, t, rest, seen, hcov, hle, heq, fun _ hx => hx, fun _ _ _ _ => ?_⟩
    unfold coverKey
    rw [if_pos hdone]
    rfl
  · have hmem : ∀ a, a ∈ swapRemove (fun a => decide (a.stop ≤ key)) t.active.length t.active ↔ a ∈ t.active ∧ key < a.stop := by
      intro a
      rw [mem_swapRemove]
      simp
    generalize hactive : swapRemove (fun a => decide (a.stop ≤ key)) t.active.length t.active = active at hmem
    have h₁ : Covering sh blocks targets oldest all key { t with active := active } rest seen :=
      ⟨h.holds, h.keeps, h.tracks.expire hk hmem, hbelow, h.finished⟩
    obtain ⟨n, t', rest', seen', h', ho, hbeyond, hpull, hlost, hfuel⟩ :=
      pullThrough_spec h₁ fun a ha => ((hmem a).mp ha).2
    obtain ⟨hle, heq⟩ := h'.answer ho hbeyond hpull
    refine ⟨n, Span.top t'.active, t', rest', seen', h', hle, heq, hlost, fun readFuel hread fuel hf => ?_⟩
    unfold coverKey
    rw [if_neg hdone]
    dsimp only
    rw [hactive, Reads.eval_bind, hfuel readFuel hread fuel hf]
    rfl

end Coverage

/-! ### A whole job -/

namespace Coverage

section Job

variable (sh : Shape) (readFuel fuel : Nat)

/-- Starts the stream of a job, after the dry run that counts the merged tombstones. -/
def startCover (j : RdelJob) : Reads Error Coverage := do
  let merged ← j.merger.mergeAll sh j.targets readFuel fuel
  return start j (!merged.isEmpty)

/-- Moves the stream on to one key after the other. -/
def coverKeys (targets : TargetView) (oldest : Nat) : List Bytes → Coverage → Reads Error (List Nat × Coverage)
  | [], t => pure ([], t)
  | key :: keys, t => do
    let (c, t) ← coverKey sh targets readFuel oldest fuel key t
    let (cs, t) ← coverKeys targets oldest keys t
    return (c :: cs, t)

end Job

variable {sh : Shape} {blocks : Nat → Bytes} {sec : Nat → List (List RdelEntry)} {j : RdelJob} {targets : TargetView}
  {oldest : Nat} {all seen : List OwnedRdel} {rest : List (List OwnedRdel)} {t : Coverage} {k : Bytes} {keys : List Bytes}

/-- A job without merged tombstones has none. -/
theorem inputs_of_merged_nil (h : j.Ready sh sec) (hon : j.OnDevice sh blocks sec) {n : Nat}
    (hrun : ∀ readFuel ≥ n, ∀ fuel ≥ n, (j.merger.mergeAll sh j.targets readFuel fuel).eval blocks = .ok []) :
    j.inputs sec = [] := by
  obtain ⟨n', merged, hrun', -, hcover⟩ := RdelJob.merger_spec h hon
  have hnil : merged = [] :=
    Except.ok.inj ((hrun' _ (le_max_right n n') _ (le_max_right n n')).symm.trans (hrun _ (le_max_left n n') _ (le_max_left n n')))
  apply List.eq_nil_iff_forall_not_mem.mpr
  intro s hs
  obtain ⟨u, hu, hlive⟩ := RdelJob.mem_inputs.mp hs
  obtain ⟨e, he, hlt, hse⟩ := RdelJob.mem_live.mp hlive
  have hcov : s.Covers s.start := by
    refine ⟨le_rfl, ?_⟩
    rw [hse]
    exact max_lt hlt ((h.input u hu).proper e he)
  -- The stamp of `s` is seen at its own start.
  have hnone := hcover (Span.top (j.inputs sec)) (Or.inr fun s hs => Span.le_top hs) s.start
  rw [hnil] at hnone
  exact absurd (Span.le_top hs) (not_le.mpr (Span.cover_eq_none.mp hnone.symm s hs hcov))

/-- The stream of a job, in front of its first key. -/
theorem covering_start (h : j.Ready sh sec) (hon : j.OnDevice sh blocks sec) (hs : j.srcRetired = 0) (ht : j.tgtRetired = 0)
    {hasRdels : Bool} (hr : hasRdels = false → j.inputs sec = []) :
    Covering sh blocks j.targets j.oldestSnapshot (j.inputs sec) [] (start j hasRdels) (j.streams sec) [] := by
  have hahead : (start j hasRdels).ahead = [] := by
    cases hasRdels <;> rfl
  have htargets : j.targets.ids = j.tgt := by
    unfold RdelJob.targets
    rw [ht]
    rfl
  have hholds := RdelJob.holds_merger (j := { j with bottommost := false, oldestSnapshot := 0 })
    ⟨h.sources_lt, h.input, h.found, h.apart⟩ hon
  have hmerger : ({ j with bottommost := false, oldestSnapshot := 0 } : RdelJob).merger =
      { (start j hasRdels).cover with oldestSnapshot := 0 } := by
    unfold RdelJob.merger start RdelMerger.new
    dsimp only
    rw [hs]
    show RdelMerger.mk (_ ++ if (!j.targets.ids.isEmpty) = true then _ else _) _ _ _ _ = _
    rw [htargets]
  constructor
  · rw [hahead, List.append_nil, ← hmerger]
    exact hholds
  · rfl
  · exact .nil _ _
  · intro rs hrs
    obtain rfl := Option.some.inj hrs
    exact fun r hr => absurd hr (by simp)
  · intro hdone
    cases hasRdels with
    | true => cases hdone
    | false =>
      refine ⟨?_, rfl⟩
      rw [RdelJob.flatten_streams]
      exact hr rfl

/-- What the stream tells for the key `x`: never too much, and all where nothing is missed. -/
structure Tells (oldest : Nat) (all : List OwnedRdel) (inexact : Option (List (Bytes × Bytes))) (x : Bytes) (c : Nat) : Prop where
  le : c ≤ Span.coverBelow oldest x all
  eq : ¬Lost inexact x → c = Span.coverBelow oldest x all

theorem coverKeys_spec (h : Covering sh blocks targets oldest all k t rest seen) (hk : ∀ x ∈ keys, k ≤ x)
    (hs : keys.Pairwise (· ≤ ·)) : ∃ n cs t', List.Forall₂ (Tells oldest all t'.inexact) keys cs ∧
      (∀ x, Lost t.inexact x → Lost t'.inexact x) ∧
      ∀ readFuel ≥ n, ∀ fuel ≥ n, (coverKeys sh readFuel fuel targets oldest keys t).eval blocks = .ok (cs, t') := by
  induction keys generalizing k t rest seen with
  | nil => exact ⟨0, [], t, .nil, fun _ hx => hx, fun _ _ _ _ => rfl⟩
  | cons x keys ih =>
    obtain ⟨hx, hs⟩ := List.pairwise_cons.mp hs
    obtain ⟨n, c, t₁, rest₁, seen₁, h₁, hle, heq, hlost, hfuel⟩ := coverKey_spec h (hk x List.mem_cons_self)
    obtain ⟨n', cs, t', htells, hlost', hfuel'⟩ := ih h₁ hx hs
    refine ⟨max n n', c :: cs, t', .cons ⟨hle, fun hnot => heq fun hc => hnot (hlost' x hc)⟩ htells,
      fun x hx => hlost' x (hlost x hx), fun readFuel hread fuel hf => ?_⟩
    rw [coverKeys, Reads.eval_bind, hfuel readFuel (by omega) fuel (by omega)]
    dsimp only [Except.bind]
    rw [Reads.eval_bind, hfuel' readFuel (by omega) fuel (by omega)]
    rfl

/-- A piece may leave the outputs only if the stream told its number, or a higher one, at every key of it. -/
theorem drops_told {c : Nat} {x : Bytes} {bottommost : Bool} {origin : DropOrigin} {p : OwnedRdel}
    {inexact : Option (List (Bytes × Bytes))} (ht : Tells oldest all inexact x c)
    (hdrop : (RdelDrop.new bottommost oldest origin inexact).drops p.start p.stop p.seq = true) (hx : p.Covers x)
    (hs : ∃ s ∈ all, s.Covers x ∧ s.seq = p.seq) : p.seq ≤ c ∧ p.seq < oldest := by
  obtain ⟨rs, rfl, hfloor, -, hmiss⟩ := RdelDrop.drops_new hdrop
  -- A range noted that held `x` would meet the piece.
  have hnot : ¬Lost (some rs) x := by
    rintro ⟨r, hr, hlo, hhi⟩
    rcases hmiss r hr with hle | hle
    · exact absurd (lt_of_lt_of_le hx.2 hle) (not_lt.mpr hlo)
    · exact absurd (lt_of_lt_of_le hhi hle) (not_lt.mpr hx.1)
  obtain ⟨s, hs, hcov, hseq⟩ := hs
  rw [ht.eq hnot, ← hseq]
  have hlt : s.seq < oldest := by
    rw [hseq]
    exact hfloor
  exact ⟨Span.le_coverBelow hs hcov hlt, hlt⟩

/-- The stream of a job before its first commit, over keys in order. -/
theorem stream_spec (h : j.Ready sh sec) (hon : j.OnDevice sh blocks sec) (hsrc : j.srcRetired = 0) (htgt : j.tgtRetired = 0)
    (hk : keys.Pairwise (· ≤ ·)) : ∃ n cs t₀ t,
      (∀ readFuel ≥ n, ∀ fuel ≥ n, (startCover sh readFuel fuel j).eval blocks = .ok t₀ ∧
        (coverKeys sh readFuel fuel j.targets j.oldestSnapshot keys t₀).eval blocks = .ok (cs, t)) ∧
      List.Forall₂ (Tells j.oldestSnapshot (j.inputs sec) t.inexact) keys cs := by
  obtain ⟨n, merged, hrun, -, -⟩ := RdelJob.merger_spec h hon
  have hr : (!merged.isEmpty) = false → j.inputs sec = [] := by
    intro hempty
    rw [Bool.not_eq_false', List.isEmpty_iff] at hempty
    rw [hempty] at hrun
    exact inputs_of_merged_nil h hon hrun
  obtain ⟨n', cs, t, htells, -, hfuel⟩ :=
    coverKeys_spec (covering_start h hon hsrc htgt hr) (fun x _ => KeyBound.nil_le x) hk
  refine ⟨max n n', cs, start j (!merged.isEmpty), t, fun readFuel hread fuel hf => ⟨?_, ?_⟩, htells⟩
  · unfold startCover
    rw [Reads.eval_bind, hrun readFuel (by omega) fuel (by omega)]
    rfl
  · exact hfuel readFuel (by omega) fuel (by omega)

/-- Coverage is sound.  Whatever the stream lets go of, at every key that a job visits in order it tells at most the highest
number below the oldest snapshot of a tombstone of the inputs around the key, and exactly that outside of the ranges noted;
so a tombstone piece that is dropped hides only versions that the job drops too. -/
theorem cover_sound (sh : Shape) (blocks : Nat → Bytes) (sec : Nat → List (List RdelEntry)) (j : RdelJob)
    (h : j.Ready sh sec) (hon : j.OnDevice sh blocks sec) (hsrc : j.srcRetired = 0) (htgt : j.tgtRetired = 0)
    (keys : List Bytes) (hk : keys.Pairwise (· ≤ ·)) : ∃ n cs t₀ t,
      (∀ readFuel ≥ n, ∀ fuel ≥ n, (startCover sh readFuel fuel j).eval blocks = .ok t₀ ∧
        (coverKeys sh readFuel fuel j.targets j.oldestSnapshot keys t₀).eval blocks = .ok (cs, t)) ∧
      List.Forall₂ (Tells j.oldestSnapshot (j.inputs sec) t.inexact) keys cs ∧
      ∀ (origin : DropOrigin) (p : OwnedRdel) (x : Bytes) (c : Nat),
        (RdelDrop.new j.bottommost j.oldestSnapshot origin t.inexact).drops p.start p.stop p.seq = true →
        (x, c) ∈ keys.zip cs → p.Covers x → (∃ s ∈ j.inputs sec, s.Covers x ∧ s.seq = p.seq) →
        p.seq ≤ c ∧ p.seq < j.oldestSnapshot := by
  obtain ⟨n, cs, t₀, t, hrun, htells⟩ := stream_spec h hon hsrc htgt hk
  refine ⟨n, cs, t₀, t, hrun, htells, ?_⟩
  intro origin p x c hdrop hmem hcov hs
  exact drops_told ((List.forall₂_iff_zip.mp htells).2 hmem) hdrop hcov hs

theorem overlap_onDevice : RdelJob.overlap.OnDevice .small RdelJob.overlapBlocks RdelJob.overlapRdels := by
  rintro t (⟨i, hi, -⟩ | ht)
  · obtain rfl : t = ⟨1, 0, 4, [1], [9], 5, 5, 0, 1, 0, 0⟩ := by
      have := List.mem_of_getElem? hi
      simpa [RdelJob.overlap] using this
    exact ⟨0, rfl, rfl, RdelJob.overlap_on ⟨by simp, by simp, by decide, by decide, by decide⟩ (by decide) rfl⟩
  · obtain rfl : t = ⟨2, 8, 4, [2], [6], 3, 3, 0, 1, 0, 0⟩ := by
      have hlive : RdelJob.overlap.liveTargets = [⟨2, 8, 4, [2], [6], 3, 3, 0, 1, 0, 0⟩] := by decide
      simpa [hlive] using ht
    exact ⟨8, rfl, rfl, RdelJob.overlap_on ⟨by simp, by simp, by decide, by decide, by decide⟩ (by decide) rfl⟩

/-- Two keys below two tombstones: the one that a snapshot cannot see is not told. -/
theorem cover_sound_overlap : ∃ n c c' t₀ t, c ≤ 3 ∧ c' = 0 ∧ ∀ readFuel ≥ n, ∀ fuel ≥ n,
    (startCover .small readFuel fuel RdelJob.overlap).eval RdelJob.overlapBlocks = .ok t₀ ∧
      (coverKeys .small readFuel fuel RdelJob.overlap.targets 4 [[3], [7]] t₀).eval RdelJob.overlapBlocks = .ok ([c, c'], t) := by
  obtain ⟨n, cs, t₀, t, hrun, htells, -⟩ := cover_sound .small RdelJob.overlapBlocks RdelJob.overlapRdels RdelJob.overlap
    RdelJob.overlap_ready overlap_onDevice rfl rfl [[3], [7]] (by decide)
  cases htells with
  | cons h₁ htells =>
    rename_i c cs
    cases htells with
    | cons h₂ htells =>
      rename_i c' cs
      cases htells
      refine ⟨n, c, c', t₀, t, ?_, ?_, hrun⟩
      · exact le_trans h₁.le (by decide)
      · exact Nat.le_zero.mp (le_trans h₂.le (by decide))

end Coverage

end Horton
