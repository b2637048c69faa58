import Horton.Scan.Answer
import Horton.Lib.Heads
import Horton.Lib.Reading

/-!
# Merge scans

The loop of both scans, over any sources that keep to their places.  `Places` is what a direction has to show of its sources:
on the next key the heads stand for the versions that the sources of the key hold, and stepping past a key keeps every
source in its place.  From it follows what a scan gives, call after call (`Places.run`).
-/

namespace Horton

open BlockDev Sstable

namespace Scans

namespace Merge

variable {σ : Type} {m : Merge σ} {sh : Shape} {db : Db} {keyBuf valBuf : Nat}

/-- No read is refused inside a step past a key. -/
def Unbroken (m : Merge σ) (sh : Shape) (db : Db) (keyBuf valBuf : Nat) : Nat → σ → Device → Prop
  | 0, _, _ => True
  | fuel + 1, s, d =>
    match (m.turn sh db keyBuf valBuf s).run .device s d with
    | (.ok (.hide key), s₁, d₁) =>
      (m.pass key s₁ d₁).1 = .ok () ∧ Unbroken m sh db keyBuf valBuf fuel (m.pass key s₁ d₁).2.1 (m.pass key s₁ d₁).2.2
    | (.ok (.give key _), s₁, d₁) => (m.pass key s₁ d₁).1 = .ok ()
    | _ => True

/-- The item that a call gave. -/
def given : Outcome Error (Option (Bytes × Bytes)) → List (Bytes × Bytes)
  | .ok item => item.toList
  | _ => []

/-- Calls one after the other on one scan, whatever they return, with buffers of any size; `items` is what they gave. -/
inductive Calls (m : Merge σ) (sh : Shape) (db : Db) : σ → Device → List (Bytes × Bytes) → σ → Device → Prop
  | refl (s : σ) (d : Device) : Calls m sh db s d [] s d
  | call {s : σ} {d : Device} {keyBuf valBuf : Nat} {o : Outcome Error (Option (Bytes × Bytes))} {s₁ s₂ : σ} {d₁ d₂ : Device}
      {items : List (Bytes × Bytes)} (hrun : m.yield sh db keyBuf valBuf s d = (o, s₁, d₁))
      (hun : m.Unbroken sh db keyBuf valBuf (m.rounds s + 1) s d) (rest : Calls m sh db s₁ d₁ items s₂ d₂) :
      Calls m sh db s d (given o ++ items) s₂ d₂

/-- The keys a direction has still to visit, behind `last`. -/
def region (before : Bytes → Bytes → Bool) (last : Option Bytes) (key : Bytes) : Bool := last.all (before · key)

/-- The sources of a scan over the tables `c` on the blocks `blocks` keep their places: `Inv last n s` says that the scan has
stepped past everything up to `last` and has `n` entries at most before it. -/
structure Places (m : Merge σ) (sh : Shape) (blocks : Nat → Bytes) (c : Contents) (db : Db) (maxSeq now : Nat)
    (within : Bytes → Prop) (ended : Bytes → Bool) (Inv : Option Bytes → Nat → σ → Prop) : Prop where
  irrefl : ∀ k, m.before k k = false
  trans : ∀ {a b c}, m.before a b = true → m.before b c = true → m.before a c = true
  total : ∀ {a b}, a ≠ b → m.before a b = true ∨ m.before b a = true
  tables : ∀ t ∈ db.scanOrder sh, c.On sh blocks t
  maxSeq_eq : ∀ {last n s}, Inv last n s → m.maxSeq s = maxSeq
  now_eq : ∀ {last n s}, Inv last n s → m.now s = now
  ended_eq : ∀ {last n s}, Inv last n s → m.ended s = ended
  ended_mono : ∀ {a b}, ended a = true → m.before a b = true → ended b = true
  inside : ∀ {last n s}, Inv last n s → ∀ h ∈ m.heads s, within h.key ∧ region m.before last h.key = true
  heads : ∀ {last n s}, Inv last n s → ∀ {k}, within k → ended k = false → region m.before last k = true →
    (∀ h ∈ m.heads s, m.before h.key k = false) →
    List.Forall₂ (Head.For sh blocks) ((m.heads s).filter (·.key = k)) ((db.sourcesAt sh c k maxSeq).filterMap Source.hit)
  rounds : ∀ {last n s}, Inv last n s → n ≤ m.rounds s
  pass : ∀ {last n s}, Inv last n s → ∀ {k}, (∃ h ∈ m.heads s, h.key = k) → (∀ h ∈ m.heads s, m.before h.key k = false) →
    ∀ d : Device, d.blocks = blocks →
      Reading .device (m.pass k) (fun o s' => o = .ok () ∧ ∃ n' < n, Inv (some k) n' s') s d

/-- What one call gave between `last` and `last'`. -/
structure Gave (before : Bytes → Bytes → Bool) (within : Bytes → Prop) (ended : Bytes → Bool)
    (shownAt : Bytes → Option Bytes) (last : Option Bytes) (items : List (Bytes × Bytes)) (last' : Option Bytes) : Prop where
  forth : ∀ k, region before last' k = true → region before last k = true
  sorted : items.Pairwise fun x y => before x.1 y.1 = true
  item : ∀ x ∈ items, within x.1 ∧ ended x.1 = false ∧ region before last x.1 = true ∧ region before last' x.1 = false ∧
    shownAt x.1 = some x.2
  complete : ∀ k v, within k → ended k = false → region before last k = true → region before last' k = false →
    shownAt k = some v → (k, v) ∈ items

namespace Places

variable {blocks : Nat → Bytes} {c : Contents} {maxSeq now n : Nat} {within : Bytes → Prop} {ended : Bytes → Bool}
  {Inv : Option Bytes → Nat → σ → Prop} {last last' : Option Bytes} {s : σ} {d : Device}

/-- The next key comes before that of every head. -/
theorem nextKey_spec (hp : Places m sh blocks c db maxSeq now within ended Inv) (heads : List Head) :
    nextKey m.before heads = none ∧ heads = [] ∨
      ∃ k, nextKey m.before heads = some k ∧ (∃ h ∈ heads, h.key = k) ∧ ∀ h ∈ heads, m.before h.key k = false := by
  induction heads using List.reverseRecOn with
  | nil => exact Or.inl ⟨rfl, rfl⟩
  | append_singleton heads h ih =>
    right
    unfold nextKey at ih ⊢
    rw [List.foldl_append, List.foldl_cons, List.foldl_nil]
    rcases ih with ⟨hnone, rfl⟩ | ⟨k, hk, ⟨h', hh', hkey⟩, hmin⟩
    · rw [hnone]
      refine ⟨h.key, rfl, ⟨h, by simp, rfl⟩, fun x hx => ?_⟩
      have hxh : x = h := by simpa using hx
      rw [hxh]
      exact hp.irrefl _
    · rw [hk, Option.all_some]
      cases hb : m.before h.key k with
      | true =>
        rw [if_pos rfl]
        refine ⟨h.key, rfl, ⟨h, by simp, rfl⟩, fun x hx => ?_⟩
        rcases List.mem_append.mp hx with hx | hx
        · cases hxh : m.before x.key h.key with
          | false => rfl
          | true =>
            have hxk := hmin x hx
            rw [hp.trans hxh hb] at hxk
            cases hxk
        · rw [List.mem_singleton.mp hx]
          exact hp.irrefl _
      | false =>
        rw [if_neg Bool.false_ne_true]
        refine ⟨k, rfl, ⟨h', by simp [hh'], hkey⟩, fun x hx => ?_⟩
        rcases List.mem_append.mp hx with hx | hx
        · exact hmin x hx
        · rw [List.mem_singleton.mp hx]
          exact hb

/-- Without heads on a key, nothing shows there. -/
theorem shown_none (hp : Places m sh blocks c db maxSeq now within ended Inv) (hi : Inv last n s) {k : Bytes}
    (hw : within k) (he : ended k = false) (hr : region m.before last k = true)
    (hmin : ∀ h ∈ m.heads s, m.before h.key k = false) (hno : ∀ h ∈ m.heads s, h.key ≠ k) :
    shown (db.sourcesAt sh c k maxSeq) now = none := by
  have hheads := hp.heads hi hw he hr hmin
  have hnil : (m.heads s).filter (·.key = k) = [] := List.filter_eq_nil_iff.mpr fun h hh => by simpa using hno h hh
  rw [hnil] at hheads
  have hhits := List.forall₂_nil_left_iff.mp hheads
  unfold shown
  rw [hhits]
  rfl

/-- What a turn makes of the next key. -/
inductive TurnIs (m : Merge σ) (sh : Shape) (c : Contents) (db : Db) (maxSeq now keyBuf valBuf : Nat) (within : Bytes → Prop)
    (ended : Bytes → Bool) (last : Option Bytes) (s : σ) : Except Error Turn → Prop
  | done (h : ∀ k, within k → ended k = false → region m.before last k = true →
      shown (db.sourcesAt sh c k maxSeq) now = none) :
      TurnIs m sh c db maxSeq now keyBuf valBuf within ended last s (.ok .done)
  | next {k : Bytes} (on : ∃ h ∈ m.heads s, h.key = k) (least : ∀ h ∈ m.heads s, m.before h.key k = false)
      (goes : ended k = false)
      (none : ∀ k', within k' → region m.before last k' = true → m.before k' k = true →
        shown (db.sourcesAt sh c k' maxSeq) now = none) :
      TurnIs m sh c db maxSeq now keyBuf valBuf within ended last s (match shown (db.sourcesAt sh c k maxSeq) now with
        | Option.none => .ok (.hide k)
        | some v =>
          if k.length > keyBuf then .error (.bufferTooSmall k.length)
          else if v.length > valBuf then .error (.bufferTooSmall v.length)
          else .ok (.give k v))

theorem turn_spec (hp : Places m sh blocks c db maxSeq now within ended Inv) (hi : Inv last n s) (keyBuf valBuf : Nat) :
    TurnIs m sh c db maxSeq now keyBuf valBuf within ended last s ((m.turn sh db keyBuf valBuf s).eval blocks) := by
  unfold turn
  rw [hp.maxSeq_eq hi, hp.now_eq hi, hp.ended_eq hi]
  rcases hp.nextKey_spec (m.heads s) with ⟨hnone, hnil⟩ | ⟨k, hk, hon, hmin⟩
  · rw [hnone]
    refine .done fun k hw he hr => hp.shown_none hi hw he hr ?_ ?_ <;> simp [hnil]
  · rw [hk]
    dsimp only
    -- A key before the next one has no head.
    have hbefore : ∀ k', within k' → ended k' = false → region m.before last k' = true → m.before k' k = true →
        shown (db.sourcesAt sh c k' maxSeq) now = none := by
      intro k' hw he hr hlt
      refine hp.shown_none hi hw he hr (fun h hh => ?_) fun h hh heq => ?_
      · cases hb : m.before h.key k' with
        | false => rfl
        | true =>
          have := hmin h hh
          rw [hp.trans hb hlt] at this
          cases this
      · have := hmin h hh
        rw [heq, hlt] at this
        cases this
    cases hend : ended k with
    | true =>
      rw [if_pos rfl]
      refine .done fun k' hw he hr => ?_
      by_cases heq : k' = k
      · rw [heq, hend] at he
        cases he
      · rcases hp.total heq with hlt | hlt
        · exact hbefore k' hw he hr hlt
        · rw [hp.ended_mono hend hlt] at he
          cases he
    | false =>
      obtain ⟨h, hh, rfl⟩ := hon
      obtain ⟨hw, hr⟩ := hp.inside hi h hh
      rw [if_neg Bool.false_ne_true, resolve_spec hp.tables (hp.heads hi hw hend hr hmin)]
      refine .next ⟨h, hh, rfl⟩ hmin hend fun k' hw' hr' hlt => hbefore k' hw' ?_ hr' hlt
      cases he' : ended k' with
      | false => rfl
      | true =>
        rw [hp.ended_mono he' hlt] at hend
        cases hend

section Gave

variable {xs ys : List (Bytes × Bytes)} {mid : Option Bytes} {shownAt : Bytes → Option Bytes}

theorem gave_nothing (last : Option Bytes) : Gave m.before within ended shownAt last [] last where
  forth _ h := h
  sorted := .nil
  item x hx := absurd hx List.not_mem_nil
  complete k v _ _ h h' := absurd (h.symm.trans h') (by simp)

theorem gave_trans (hp : Places m sh blocks c db maxSeq now within ended Inv)
    (h : Gave m.before within ended shownAt last xs mid) (h' : Gave m.before within ended shownAt mid ys last') :
    Gave m.before within ended shownAt last (xs ++ ys) last' where
  forth k hk := h.forth k (h'.forth k hk)
  sorted := by
    rw [List.pairwise_append]
    refine ⟨h.sorted, h'.sorted, fun x hx y hy => ?_⟩
    obtain ⟨-, -, -, hxm, -⟩ := h.item x hx
    obtain ⟨-, -, hym, -, -⟩ := h'.item y hy
    cases mid with
    | none => cases hxm
    | some b =>
      have hby : m.before b y.1 = true := hym
      have hbx : m.before b x.1 = false := hxm
      by_cases heq : x.1 = b
      · rw [heq]
        exact hby
      · rcases hp.total heq with hlt | hlt
        · exact hp.trans hlt hby
        · rw [hlt] at hbx
          cases hbx
  item x hx := by
    rcases List.mem_append.mp hx with hx | hx
    · obtain ⟨hw, he, hr, hm, hs⟩ := h.item x hx
      refine ⟨hw, he, hr, ?_, hs⟩
      cases hr' : region m.before last' x.1 with
      | false => rfl
      | true =>
        rw [h'.forth _ hr'] at hm
        cases hm
    · obtain ⟨hw, he, hr, hm, hs⟩ := h'.item x hx
      exact ⟨hw, he, h.forth _ hr, hm, hs⟩
  complete k v hw he hr hr' hs := by
    cases hm : region m.before mid k with
    | false => exact List.mem_append_left _ (h.complete k v hw he hr hm hs)
    | true => exact List.mem_append_right _ (h'.complete k v hw he hm hr' hs)

/-- A step over the next key, which gives what the key shows. -/
theorem gave_key (hp : Places m sh blocks c db maxSeq now within ended Inv) {k : Bytes} (hw : within k)
    (he : ended k = false)
    (hr : region m.before last k = true) (hnone : ∀ k', within k' → region m.before last k' = true → m.before k' k = true →
      shownAt k' = none) : Gave m.before within ended shownAt last ((shownAt k).map (k, ·)).toList (some k) where
  forth k' hk' := by
    cases last with
    | none => rfl
    | some b => exact hp.trans hr hk'
  sorted := by cases shownAt k <;> simp
  item x hx := by
    obtain ⟨v, hv, rfl⟩ : ∃ v, shownAt k = some v ∧ (k, v) = x := by simpa using hx
    exact ⟨hw, he, hr, hp.irrefl k, hv⟩
  complete k' v hw' _ hr' hout hs := by
    by_cases heq : k' = k
    · rw [← heq, hs]
      simp
    · rcases hp.total heq with hlt | hlt
      · rw [hnone k' hw' hr' hlt] at hs
        cases hs
      · have hout' : m.before k k' = false := hout
        rw [hlt] at hout'
        cases hout'

end Gave

/-- A call that no refused read cut short in a step past a key. -/
theorem yieldRounds_spec (hp : Places m sh blocks c db maxSeq now within ended Inv) {fuel : Nat} (hi : Inv last n s)
    (hd : d.blocks = blocks) (hf : n < fuel) (hun : m.Unbroken sh db keyBuf valBuf fuel s d) :
    (m.yieldRounds sh db keyBuf valBuf fuel).wp (fun o s' d' => d'.blocks = blocks ∧ ∃ last' n', Inv last' n' s' ∧
      Gave m.before within ended (fun k => shown (db.sourcesAt sh c k maxSeq) now) last (given o) last' ∧
      (o = .ok none → ∀ k, within k → ended k = false → region m.before last' k = true →
        shown (db.sourcesAt sh c k maxSeq) now = none)) s d := by
  induction fuel generalizing last n s d with
  | zero => omega
  | succ fuel ih =>
    rw [yieldRounds, Prog.wp_bind, Prog.wp_get, Prog.andThen_ok, Prog.wp_bind]
    refine Prog.wp_of_run fun o s₁ d₁ hrun => ?_
    have hpost := Prog.wp_run (Reads.run_spec .device (m.turn sh db keyBuf valBuf s) s d) hrun
    rw [Unbroken, hrun] at hun
    cases o with
    | err e =>
      obtain ⟨rfl, hread⟩ := hpost
      have hblocks : d₁.blocks = blocks := by
        rcases hread with ⟨-, hro⟩ | hf
        · exact hro.1.trans hd
        · exact hf.2.1.1.trans hd
      exact ⟨hblocks, last, n, hi, gave_nothing last, fun h => by cases h⟩
    | cut =>
      obtain ⟨rfl, hread⟩ := hpost
      exact ⟨hread.1.1.trans hd, last, n, hi, gave_nothing last, fun h => by cases h⟩
    | dropped =>
      obtain ⟨rfl, hread⟩ := hpost
      exact ⟨hread.1.1.trans hd, last, n, hi, gave_nothing last, fun h => by cases h⟩
    | ok t =>
      obtain ⟨rfl, heval, hro⟩ := hpost
      have hd₁ : d₁.blocks = blocks := hro.1.trans hd
      rw [Prog.andThen_ok]
      have hturn := hp.turn_spec hi keyBuf valBuf
      rw [← hd, heval] at hturn
      generalize hx : (Except.ok t : Except Error Turn) = x at hturn
      cases hturn with
      | done hnone =>
        obtain rfl := Except.ok.inj hx
        exact ⟨hd₁, last, n, hi, gave_nothing last, fun _ => hnone⟩
      | @next k on least goes none =>
        obtain ⟨h, hh, rfl⟩ := on
        obtain ⟨hw, hr⟩ := hp.inside hi h hh
        have hpass := hp.pass hi ⟨h, hh, rfl⟩ least d₁ hd₁
        have hgave : Gave m.before within ended (fun k => shown (db.sourcesAt sh c k maxSeq) now) last
            ((shown (db.sourcesAt sh c h.key maxSeq) now).map (h.key, ·)).toList (some h.key) := gave_key hp hw goes hr none
        cases hs : shown (db.sourcesAt sh c h.key maxSeq) now with
        | none =>
          rw [hs] at hx hgave
          obtain rfl := Except.ok.inj hx
          dsimp only at hun ⊢
          rw [Prog.wp_bind]
          refine Prog.wp_of_run fun o₂ s₂ d₂ hrun₂ => ?_
          rw [hrun₂] at hun
          obtain ⟨hok, hun₂⟩ := hun
          obtain rfl : o₂ = .ok () := hok
          obtain ⟨hro₂, ⟨-, n', hn', hi₂⟩ | hhalt⟩ := Prog.wp_run hpass hrun₂
          · rw [Prog.andThen_ok]
            refine Prog.wp_mono (ih hi₂ (hro₂.1.trans hd₁) (by omega) hun₂) ?_
            intro o s' d' hpost'
            obtain ⟨hb, last', n'', hi', hg, hend⟩ := hpost'
            exact ⟨hb, last', n'', hi', by simpa using gave_trans hp hgave hg, hend⟩
          · exact hhalt.elim
        | some v =>
          rw [hs] at hx hgave
          dsimp only at hx
          split at hx
          · cases hx
          split at hx
          · cases hx
          obtain rfl := Except.ok.inj hx
          dsimp only at hun ⊢
          rw [Prog.wp_bind]
          refine Prog.wp_of_run fun o₂ s₂ d₂ hrun₂ => ?_
          rw [hrun₂] at hun
          obtain rfl : o₂ = .ok () := hun
          obtain ⟨hro₂, ⟨-, n', hn', hi₂⟩ | hhalt⟩ := Prog.wp_run hpass hrun₂
          · exact ⟨hro₂.1.trans hd₁, some h.key, n', hi₂, hgave, fun h => by cases h⟩
          · exact hhalt.elim

/-- A sequence of calls. -/
theorem calls_spec (hp : Places m sh blocks c db maxSeq now within ended Inv) {s' : σ} {d' : Device}
    {items : List (Bytes × Bytes)} (hcalls : m.Calls sh db s d items s' d') (hi : Inv last n s) (hd : d.blocks = blocks) :
    d'.blocks = blocks ∧ ∃ last' n', Inv last' n' s' ∧
      Gave m.before within ended (fun k => shown (db.sourcesAt sh c k maxSeq) now) last items last' := by
  induction hcalls generalizing last n with
  | refl s d => exact ⟨hd, last, n, hi, gave_nothing last⟩
  | call hrun hun rest ih =>
    have hcall := hp.yieldRounds_spec hi hd (Nat.lt_succ_of_le (hp.rounds hi)) hun
    obtain ⟨hb, last₁, n₁, hi₁, hg, -⟩ := Prog.wp_run hcall hrun
    obtain ⟨hb', last', n', hi', hg'⟩ := ih hi₁ hb
    exact ⟨hb', last', n', hi', gave_trans hp hg hg'⟩

end Places

end Merge

end Scans

end Horton
