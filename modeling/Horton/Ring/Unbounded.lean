import Horton.Ring.Basic

/-!
# The ring over unbounded tickets

The invariant of the protocol when tickets never wrap.  Every slot's gate names one ticket of the slot, at most a lap
from the head; a writer that has won a ticket and is still running has its gate in hand; the cursor passes claimed
tickets only.
-/

namespace Horton.Ring

open Bytes

namespace State

variable {G : Type} (s : State G)

@[simp] theorem gate_setGate (i j : Nat) (g : G) : (s.setGate i g).gate j = if j = i then g else s.gate j := by
  simp only [setGate, gate]; split <;> rfl

@[simp] theorem cells_setGate (i j : Nat) (g : G) : (s.setGate i g).cells j = s.cells j := by
  simp only [setGate, cells]; split <;> rfl

@[simp] theorem gate_setCell (i k v j : Nat) : (s.setCell i k v).gate j = s.gate j := by
  simp only [setCell, gate]; split <;> rfl

@[simp] theorem cells_setCell (i k v j : Nat) :
    (s.setCell i k v).cells j = if j = i then (s.cells j).set k v else s.cells j := by
  simp only [setCell, cells]; split <;> rfl

@[simp] theorem gate_setWriter (p j : Nat) (w : Writer) : (s.setWriter p w).gate j = s.gate j := rfl

@[simp] theorem cells_setWriter (p j : Nat) (w : Writer) : (s.setWriter p w).cells j = s.cells j := rfl

@[simp] theorem gate_setHost (h j : Nat) (w : Host) : (s.setHost h w).gate j = s.gate j := rfl

@[simp] theorem cells_setHost (h j : Nat) (w : Host) : (s.setHost h w).cells j = s.cells j := rfl

end State

/-! ### The invariant -/

/-- What the gate of slot `i` may say. -/
def GateOk (N head cursor i : Nat) : Gate → Prop
  | .free t => t % N = i ∧ head ≤ t + N ∧ t < head + N ∧ cursor ≤ t
  | .published t => t % N = i ∧ head ≤ t + N ∧ t < head ∧ cursor ≤ t
  | .fenced t => t % N = i ∧ head ≤ t + N ∧ t < head ∧ t ≤ cursor

/-- The slot has left ticket `c` behind: `c` can no longer be published there. -/
def Gate.Beyond (g : Gate) (c : Nat) : Prop := g = .fenced c ∨ c < g.ticket

/-- What a running writer knows. -/
def WriterOk (N : Nat) (s : State Gate) : Writer → Prop
  | .idle => True
  | .headLoaded t => t ≤ s.head
  | .gateMatched t => t ≤ s.head ∧ (t = s.head → s.gate (t % N) = .free t)
  | .claimed t => s.gate (t % N) = .free t ∨ s.gate (t % N) = .fenced t
  | .storing t payload i =>
    (s.gate (t % N) = .free t ∨ s.gate (t % N) = .fenced t) ∧ i ≤ 8 ∧
      ∀ j < i, (s.cells (t % N))[j]? = some (payload.word j)
  | .reloading t _ | .selfReleasing t _ => s.gate (t % N) = .fenced t

def Payload.words (p : Payload) : List Nat := (List.range 8).map p.word

/-- What the drainer knows inside a call. -/
def DrainerOk (N : Nat) (s : State Gate) (tr : List Event) : Drainer → Prop
  | .idle => True
  | .polling c | .fencing c => c = s.cursor
  | .reading c words =>
    c = s.cursor ∧ s.gate (c % N) = .published c ∧ words.length < 8 ∧ words = (s.cells (c % N)).take words.length
  | .releasing c words => c = s.cursor ∧ s.gate (c % N) = .published c ∧ words = s.cells (c % N)
  | .advancing c words =>
    c = s.cursor ∧ c < s.head ∧ c < (s.gate (c % N)).ticket ∧ ∃ p payload, .published p c payload ∈ tr ∧
      words = payload.words
  | .skipping c | .fenceAdvancing c => c = s.cursor ∧ c < s.head ∧ (s.gate (c % N)).Beyond c
  | .fenceCas c => c = s.cursor ∧ c < s.head

/-- The ring's state. -/
structure Inv (N : Nat) (s : State Gate) : Prop where
  cursor_le : s.cursor ≤ s.head
  gates : ∀ i < N, GateOk N s.head s.cursor i (s.gate i)
  cells : ∀ i, (s.cells i).length = 8
  writers : ∀ p, s.stopped p = false → WriterOk N s (s.writers p)
  held : ∀ p t, (s.writers p).holds = some t → t < s.head
  owner : ∀ p q t, (s.writers p).holds = some t → (s.writers q).holds = some t → p = q
  host : ∀ t, s.hosts 0 = .releasing t → t < s.head ∧ (s.gate (t % N) = .free t ∨ s.gate (t % N) = .fenced t) ∧
    ∀ p, (s.writers p).holds = some t → s.stopped p = true
  hosts : ∀ h, h ≠ 0 → s.hosts h = .idle

/-- The host releases claimed tickets only, of writers that have stopped, and one host thread does so. -/
def Legal (s : State Gate) : Action → Prop
  | .forceRelease h t => h = 0 ∧ t < s.head ∧ ∀ p, (s.writers p).holds = some t → s.stopped p = true
  | _ => True


/-! ### What each kind of step preserves -/

variable {N : Nat} {s : State Gate}

theorem GateOk.residue {head cursor i : Nat} {g : Gate} (h : GateOk N head cursor i g) : g.ticket % N = i := by
  cases g <;> exact h.1

theorem GateOk.window {head cursor i : Nat} {g : Gate} (h : GateOk N head cursor i g) :
    head ≤ g.ticket + N ∧ g.ticket < head + N := by
  cases g with
  | free t => exact ⟨h.2.1, h.2.2.1⟩
  | published t => exact ⟨h.2.1, Nat.lt_add_right _ h.2.2.1⟩
  | fenced t => exact ⟨h.2.1, Nat.lt_add_right _ h.2.2.1⟩

theorem WriterOk.congr {s' : State Gate} {w : Writer} (h : WriterOk N s w) (hh : s'.head = s.head)
    (hg : ∀ i, s'.gate i = s.gate i) (hc : ∀ i, s'.cells i = s.cells i) : WriterOk N s' w := by
  cases w with
  | idle => trivial
  | _ => simpa only [WriterOk, hh, hg, hc] using h

namespace Inv

theorem setWriter (h : Inv N s) {p : Nat} {w : Writer} (hw : s.stopped p = false → WriterOk N s w)
    (hold : ∀ t, w.holds = some t → (s.writers p).holds = some t) : Inv N (s.setWriter p w) := by
  have hback : ∀ q t, ((s.setWriter p w).writers q).holds = some t → (s.writers q).holds = some t := by
    intro q t hq
    by_cases hqp : q = p
    · subst hqp
      exact hold t (by simpa using hq)
    · simpa [hqp] using hq
  refine ⟨h.cursor_le, h.gates, h.cells, ?_, ?_, ?_, ?_, h.hosts⟩
  · intro q hq
    by_cases hqp : q = p
    · subst hqp
      exact (by simpa using hw hq : WriterOk N s _).congr rfl (fun _ => rfl) (fun _ => rfl)
    · have := h.writers q hq
      exact (by simpa [hqp] using this : WriterOk N s _).congr rfl (fun _ => rfl) (fun _ => rfl)
  · exact fun q t hq => h.held q t (hback q t hq)
  · exact fun q r t hq hr => h.owner q r t (hback q t hq) (hback r t hr)
  · intro t ht
    obtain ⟨h1, h2, h3⟩ := h.host t ht
    exact ⟨h1, h2, fun q hq => h3 q (hback q t hq)⟩

theorem setDrainer (h : Inv N s) (d : Drainer) : Inv N { s with drainer := d } := by
  refine ⟨h.cursor_le, h.gates, h.cells, ?_, h.held, h.owner, h.host, h.hosts⟩
  exact fun p hp => (h.writers p hp).congr rfl (fun _ => rfl) (fun _ => rfl)

theorem stop (h : Inv N s) (p : Nat) :
    Inv N { s with stopped := fun q => if q = p then true else s.stopped q } := by
  refine ⟨h.cursor_le, h.gates, h.cells, ?_, h.held, h.owner, ?_, h.hosts⟩
  · intro q hq
    by_cases hqp : q = p
    · simp [hqp] at hq
    · exact (h.writers q (by simpa [hqp] using hq)).congr rfl (fun _ => rfl) (fun _ => rfl)
  · intro t ht
    obtain ⟨h1, h2, h3⟩ := h.host t ht
    refine ⟨h1, h2, fun q hq => ?_⟩
    by_cases hqp : q = p
    · simp [hqp]
    · simpa [hqp] using h3 q hq

/-- The writer that matched the gate of the head takes the ticket. -/
theorem claim (h : Inv N s) (hN : 0 < N) {p : Nat} (hp : s.stopped p = false)
    (hg : s.gate (s.head % N) = .free s.head) :
    Inv N { s.setWriter p (.claimed s.head) with head := s.head + 1 } := by
  -- every other slot's ticket lies away from the head
  have hother : ∀ i < N, s.head + 1 ≤ (s.gate i).ticket + N := by
    intro i hi
    have hok := h.gates i hi
    rcases Nat.lt_or_ge s.head ((s.gate i).ticket + N) with hlt | hge
    · omega
    · have heq : (s.gate i).ticket + N = s.head := Nat.le_antisymm hge hok.window.1
      have hi' : s.head % N = i := by rw [← heq, Nat.add_mod_right, hok.residue]
      rw [← hi', hg] at heq
      simp only [Gate.ticket] at heq
      omega
  refine ⟨Nat.le_succ_of_le h.cursor_le, ?_, h.cells, ?_, ?_, ?_, ?_, h.hosts⟩
  · intro i hi
    have hok := h.gates i hi
    have ho := hother i hi
    show GateOk N (s.head + 1) s.cursor i (s.gate i)
    cases hgi : s.gate i <;> rw [hgi] at hok ho <;> simp only [GateOk, Gate.ticket] at hok ho ⊢ <;> omega
  · intro q hq
    by_cases hqp : q = p
    · subst hqp
      show WriterOk N _ ((s.setWriter q (.claimed s.head)).writers q)
      simp only [State.setWriter_writers, ↓reduceIte]
      exact Or.inl hg
    · have hw := h.writers q hq
      show WriterOk N _ ((s.setWriter p (.claimed s.head)).writers q)
      simp only [State.setWriter_writers, hqp, ↓reduceIte]
      cases hwq : s.writers q with
      | idle => trivial
      | headLoaded t =>
        rw [hwq] at hw
        exact Nat.le_succ_of_le hw
      | gateMatched t =>
        rw [hwq] at hw
        refine ⟨Nat.le_succ_of_le hw.1, fun heq => ?_⟩
        have : t ≤ s.head := hw.1
        simp only at heq
        omega
      | claimed t => rw [hwq] at hw; exact hw
      | storing t payload i => rw [hwq] at hw; exact hw
      | reloading t payload => rw [hwq] at hw; exact hw
      | selfReleasing t payload => rw [hwq] at hw; exact hw
  · intro q t hq
    show t < s.head + 1
    by_cases hqp : q = p
    · subst hqp
      have : s.head = t := by simpa [Writer.holds] using hq
      omega
    · exact Nat.lt_succ_of_lt (h.held q t (by simpa [hqp] using hq))
  · intro q r t hq hr
    by_cases hqp : q = p <;> by_cases hrp : r = p
    · rw [hqp, hrp]
    · subst hqp
      have h1 : s.head = t := by simpa [Writer.holds] using hq
      have h2 := h.held r t (by simpa [hrp] using hr)
      omega
    · subst hrp
      have h1 : s.head = t := by simpa [Writer.holds] using hr
      have h2 := h.held q t (by simpa [hqp] using hq)
      omega
    · exact h.owner q r t (by simpa [hqp] using hq) (by simpa [hrp] using hr)
  · intro t ht
    obtain ⟨h1, h2, h3⟩ := h.host t ht
    refine ⟨Nat.lt_succ_of_lt h1, h2, fun q hq => ?_⟩
    by_cases hqp : q = p
    · subst hqp
      have : s.head = t := by simpa [Writer.holds] using hq
      omega
    · exact h3 q (by simpa [hqp] using hq)

/-- Two running writers never work in one slot. -/
theorem slot_owner (h : Inv N s) {p q t t' : Nat} (hp : (s.writers p).holds = some t)
    (hq : (s.writers q).holds = some t') (hg : (s.gate (t % N)).ticket = t) (hg' : (s.gate (t' % N)).ticket = t')
    (hslot : t % N = t' % N) : p = q := by
  have : t = t' := by rw [← hg, hslot, hg']
  subst this
  exact h.owner p q t hp hq

/-- A running writer's gate names the writer's ticket. -/
theorem ticket_of_running (h : Inv N s) {p t : Nat} (hp : s.stopped p = false)
    (ht : (s.writers p).holds = some t) : s.gate (t % N) = .free t ∨ s.gate (t % N) = .fenced t := by
  have hw := h.writers p hp
  cases hwp : s.writers p <;> rw [hwp] at hw ht <;> simp only [Writer.holds, reduceCtorEq, Option.some.injEq] at ht
  all_goals subst ht
  · exact hw
  · exact hw.1
  · exact Or.inr hw
  · exact Or.inr hw

/-- The owner of a slot stores one more word of its payload. -/
theorem store (h : Inv N s) {p t i : Nat} {payload : Payload} (hp : s.stopped p = false)
    (hw : s.writers p = .storing t payload i) (hi : i < 8) :
    Inv N ((s.setCell (t % N) i (payload.word i)).setWriter p (.storing t payload (i + 1))) := by
  have hholds : (s.writers p).holds = some t := by rw [hw]; rfl
  have hown := h.ticket_of_running hp hholds
  have hticket : ∀ {t'}, s.gate (t' % N) = .free t' ∨ s.gate (t' % N) = .fenced t' →
      (s.gate (t' % N)).ticket = t' := by
    rintro t' (h' | h') <;> rw [h'] <;> rfl
  have hcells := (h.writers p hp)
  rw [hw] at hcells
  have hset : Inv N (s.setCell (t % N) i (payload.word i)) := by
    refine ⟨h.cursor_le, ?_, ?_, ?_, h.held, h.owner, ?_, h.hosts⟩
    · intro j hj
      simpa using h.gates j hj
    · intro j
      have := h.cells j
      by_cases hj : j = t % N <;> simpa [hj] using h.cells _
    · intro q hq
      have hwq := h.writers q hq
      show WriterOk N (s.setCell (t % N) i (payload.word i)) (s.writers q)
      cases hsq : s.writers q with
      | storing t' payload' i' =>
        rw [hsq] at hwq
        refine ⟨by simpa using hwq.1, hwq.2.1, fun j hj => ?_⟩
        by_cases hslot : t' % N = t % N
        · have hqp : q = p := h.slot_owner (by rw [hsq]; rfl) hholds (hticket hwq.1) (hticket hown) hslot
          rw [hqp, hw, Writer.storing.injEq] at hsq
          obtain ⟨rfl, rfl, rfl⟩ := hsq
          rw [State.cells_setCell, if_pos rfl, List.getElem?_set_ne (by omega)]
          exact hwq.2.2 j hj
        · rw [State.cells_setCell, if_neg hslot]
          exact hwq.2.2 j hj
      | idle => trivial
      | headLoaded t' => rw [hsq] at hwq; exact hwq
      | gateMatched t' => rw [hsq] at hwq; simpa [WriterOk] using hwq
      | claimed t' => rw [hsq] at hwq; simpa [WriterOk] using hwq
      | reloading t' _ => rw [hsq] at hwq; simpa [WriterOk] using hwq
      | selfReleasing t' _ => rw [hsq] at hwq; simpa [WriterOk] using hwq
    · intro t' ht'
      simpa using h.host t' ht'
  refine hset.setWriter (fun _ => ?_) (fun t' ht' => ?_)
  · refine ⟨by simpa using hown, hi, fun j hj => ?_⟩
    rw [State.cells_setCell, if_pos rfl]
    rcases Nat.lt_succ_iff_lt_or_eq.mp hj with hj | rfl
    · rw [List.getElem?_set_ne (by omega)]
      exact hcells.2.2 j hj
    · rw [List.getElem?_set_self (by rw [h.cells]; exact hi)]
  · have : t = t' := by simpa [Writer.holds] using ht'
    rw [State.setCell_writers, hholds, this]

/-- The gate of a claimed ticket's slot moves on, with no running writer in its way. -/
theorem move (h : Inv N s) {t : Nat} {g : Gate} (ht : t < s.head) (hgt : (s.gate (t % N)).ticket = t)
    (hg : GateOk N s.head s.cursor (t % N) g)
    (hrun : ∀ p, s.stopped p = false → (s.writers p).holds = some t →
      WriterOk N (s.setGate (t % N) g) (s.writers p))
    (hhost : s.hosts 0 = .releasing t → g = .free t ∨ g = .fenced t) : Inv N (s.setGate (t % N) g) := by
  have hne : ∀ {t'}, t' ≠ t → (s.gate (t' % N)).ticket = t' → t' % N ≠ t % N := by
    intro t' hne ht' hslot
    rw [hslot, hgt] at ht'
    exact hne ht'.symm
  refine ⟨h.cursor_le, ?_, ?_, ?_, h.held, h.owner, ?_, h.hosts⟩
  · intro i hi
    rw [State.gate_setGate]
    split
    · subst i; exact hg
    · exact h.gates i hi
  · exact fun i => by simpa using h.cells i
  · intro q hq
    have hwq := h.writers q hq
    by_cases hqt : (s.writers q).holds = some t
    · exact hrun q hq hqt
    · show WriterOk N (s.setGate (t % N) g) (s.writers q)
      have hkeep : ∀ t', (s.writers q).holds = some t' → (s.setGate (t % N) g).gate (t' % N) = s.gate (t' % N) := by
        intro t' ht'
        have hown := h.ticket_of_running hq ht'
        rw [State.gate_setGate, if_neg]
        refine hne (fun heq => hqt (heq ▸ ht')) ?_
        rcases hown with h' | h' <;> rw [h'] <;> rfl
      cases hsq : s.writers q with
      | idle => trivial
      | headLoaded t' => rw [hsq] at hwq; exact hwq
      | gateMatched t' =>
        rw [hsq] at hwq
        refine ⟨hwq.1, fun heq => ?_⟩
        have hfree := hwq.2 heq
        rw [State.gate_setGate, if_neg]
        · exact hfree
        · refine hne ?_ (by rw [hfree]; rfl)
          simp only [State.setGate_head] at heq
          omega
      | claimed t' =>
        rw [hsq] at hwq hkeep
        simpa only [WriterOk, hkeep t' rfl] using hwq
      | storing t' payload' i' =>
        rw [hsq] at hwq hkeep
        simpa only [WriterOk, hkeep t' rfl, State.cells_setGate] using hwq
      | reloading t' _ =>
        rw [hsq] at hwq hkeep
        simpa only [WriterOk, hkeep t' rfl] using hwq
      | selfReleasing t' _ =>
        rw [hsq] at hwq hkeep
        simpa only [WriterOk, hkeep t' rfl] using hwq
  · intro t' ht'
    obtain ⟨h1, h2, h3⟩ := h.host t' ht'
    refine ⟨h1, ?_, h3⟩
    by_cases heq : t' = t
    · subst heq
      simpa using hhost ht'
    · rw [State.gate_setGate, if_neg]
      · exact h2
      · refine hne heq ?_
        rcases h2 with h' | h' <;> rw [h'] <;> rfl

/-- The cursor passes a claimed ticket whose slot has left it behind. -/
theorem advance (h : Inv N s) (hc : s.cursor < s.head) (hb : (s.gate (s.cursor % N)).Beyond s.cursor) :
    Inv N { s with cursor := s.cursor + 1 } := by
  refine ⟨hc, ?_, h.cells, ?_, h.held, h.owner, h.host, h.hosts⟩
  · intro i hi
    have hok := h.gates i hi
    show GateOk N s.head (s.cursor + 1) i (s.gate i)
    have hne : (s.gate i).ticket = s.cursor → s.gate i = .fenced s.cursor := by
      intro heq
      have hi' : s.cursor % N = i := by rw [← heq, hok.residue]
      rw [hi'] at hb
      rcases hb with hb | hb
      · exact hb
      · omega
    cases hgi : s.gate i <;> rw [hgi] at hok hne <;>
      simp only [GateOk, Gate.ticket, reduceCtorEq, imp_false] at hok hne ⊢ <;> omega
  · exact fun p hp => (h.writers p hp).congr rfl (fun _ => rfl) (fun _ => rfl)

/-- Every step of a writer. -/
theorem stepWriter (h : Inv N s) (hN : 0 < N) {p : Nat} (hp : s.stopped p = false) {s' : State Gate}
    {evs : List Event} (hs : stepWriter (unbounded N) N s p = some (s', evs)) : Inv N s' := by
  have hw := h.writers p hp
  unfold Ring.stepWriter at hs
  cases hwp : s.writers p with
  | idle => simp [hwp] at hs
  | claimed t => simp [hwp] at hs
  | headLoaded t =>
    rw [hwp] at hw
    simp only [hwp] at hs
    split at hs <;> obtain ⟨rfl, -⟩ := Prod.mk.inj (Option.some.inj hs)
    · exact h.setWriter (fun _ => trivial) (by simp [Writer.holds])
    · rename_i hg
      exact h.setWriter (fun _ => ⟨hw, fun _ => by simpa [unbounded] using hg⟩) (by simp [Writer.holds])
  | gateMatched t =>
    rw [hwp] at hw
    simp only [hwp] at hs
    split at hs <;> obtain ⟨rfl, -⟩ := Prod.mk.inj (Option.some.inj hs)
    · rename_i heq
      subst heq
      exact h.claim hN hp (hw.2 rfl)
    · exact h.setWriter (fun _ => trivial) (by simp [Writer.holds])
  | storing t payload i =>
    have hholds : (s.writers p).holds = some t := by rw [hwp]; rfl
    rw [hwp] at hw
    simp only [hwp] at hs
    split at hs
    · obtain ⟨rfl, -⟩ := Prod.mk.inj (Option.some.inj hs)
      exact h.store hp hwp (by assumption)
    · split at hs <;> obtain ⟨rfl, -⟩ := Prod.mk.inj (Option.some.inj hs)
      · rename_i hg
        replace hg : s.gate (t % N) = .free t := hg
        have hok := h.gates _ (Nat.mod_lt t hN)
        rw [hg] at hok
        have hht := h.held p t hholds
        -- the writer lets go first, then the gate moves
        have h1 : Inv N (s.setWriter p .idle) := h.setWriter (fun _ => trivial) (by simp [Writer.holds])
        refine h1.move (t := t) (g := .published t) hht (by simp [hg, Gate.ticket]) ?_ ?_ ?_
        · exact ⟨rfl, hok.2.1, hht, hok.2.2.2⟩
        · intro q _ hq
          by_cases hqp : q = p
          · simp [hqp, Writer.holds] at hq
          · exact absurd (h.owner q p t (by simpa [hqp] using hq) hholds) hqp
        · intro hhost
          have := (h.host t hhost).2.2 p hholds
          simp [hp] at this
      · rename_i hg
        refine h.setWriter (fun _ => ?_) (by simp [Writer.holds, hwp])
        rcases hw.1 with h' | h'
        · exact absurd h' hg
        · exact h'
  | reloading t payload =>
    rw [hwp] at hw
    have hg : s.gate (t % N) = .fenced t := hw
    simp only [hwp, hg, unbounded, reduceCtorEq, ↓reduceIte] at hs
    obtain ⟨rfl, -⟩ := Prod.mk.inj (Option.some.inj hs)
    exact h.setWriter (fun _ => hg) (by simp [Writer.holds, hwp])
  | selfReleasing t payload =>
    have hholds : (s.writers p).holds = some t := by rw [hwp]; rfl
    rw [hwp] at hw
    have hg : s.gate (t % N) = .fenced t := hw
    simp only [hwp, hg, unbounded, ↓reduceIte] at hs
    obtain ⟨rfl, -⟩ := Prod.mk.inj (Option.some.inj hs)
    have hok := h.gates _ (Nat.mod_lt t hN)
    rw [hg] at hok
    have h1 : Inv N (s.setWriter p .idle) := h.setWriter (fun _ => trivial) (by simp [Writer.holds])
    refine h1.move (t := t) (g := .free (t + N)) hok.2.2.1 (by simp [hg, Gate.ticket]) ?_ ?_ ?_
    · have := h.cursor_le
      have := hok.2
      refine ⟨by simp, ?_, ?_, ?_⟩ <;> simp only [State.setWriter_head, State.setWriter_cursor] <;> omega
    · intro q _ hq
      by_cases hqp : q = p
      · simp [hqp, Writer.holds] at hq
      · exact absurd (h.owner q p t (by simpa [hqp] using hq) hholds) hqp
    · intro hhost
      have := (h.host t hhost).2.2 p hholds
      simp [hp] at this

/-- Every step of the drainer, from what it knows inside its call. -/
theorem stepDrainer (h : Inv N s) (hN : 0 < N) {tr : List Event} (hd : DrainerOk N s tr s.drainer) {s' : State Gate}
    {evs : List Event} (hs : stepDrainer (unbounded N) N s = some (s', evs)) : Inv N s' := by
  unfold Ring.stepDrainer at hs
  cases hsd : s.drainer with
  | idle => simp [hsd] at hs
  | polling c =>
    simp only [hsd] at hs
    split at hs
    · obtain ⟨rfl, -⟩ := Prod.mk.inj (Option.some.inj hs)
      exact h.setDrainer _
    · split at hs <;> obtain ⟨rfl, -⟩ := Prod.mk.inj (Option.some.inj hs) <;> exact h.setDrainer _
  | reading c words =>
    simp only [hsd] at hs
    obtain ⟨rfl, -⟩ := Prod.mk.inj (Option.some.inj hs)
    exact h.setDrainer _
  | releasing c words =>
    simp only [hsd] at hs
    obtain ⟨rfl, -⟩ := Prod.mk.inj (Option.some.inj hs)
    rw [hsd] at hd
    obtain ⟨rfl, hg, -⟩ := hd
    have hok := h.gates _ (Nat.mod_lt s.cursor hN)
    rw [hg] at hok
    have hle := h.cursor_le
    obtain ⟨-, h2, h3, -⟩ := hok
    refine Inv.setDrainer (h.move (t := s.cursor) (g := .free (s.cursor + N)) h3 (by rw [hg]; rfl) ?_ ?_ ?_) _
    · exact ⟨by simp, by omega, by omega, by omega⟩
    · intro p hp hholds
      rcases h.ticket_of_running hp hholds with h' | h' <;> rw [hg] at h' <;> simp at h'
    · intro hhost
      have := (h.host _ hhost).2.1
      simp [hg] at this
  | advancing c words =>
    simp only [hsd] at hs
    obtain ⟨rfl, -⟩ := Prod.mk.inj (Option.some.inj hs)
    rw [hsd] at hd
    obtain ⟨rfl, h2, h3, -⟩ := hd
    exact (h.advance h2 (Or.inr h3)).setDrainer _
  | skipping c =>
    simp only [hsd] at hs
    obtain ⟨rfl, -⟩ := Prod.mk.inj (Option.some.inj hs)
    rw [hsd] at hd
    obtain ⟨rfl, h2, h3⟩ := hd
    exact (h.advance h2 h3).setDrainer _
  | fencing c =>
    simp only [hsd] at hs
    split at hs <;> obtain ⟨rfl, -⟩ := Prod.mk.inj (Option.some.inj hs) <;> exact h.setDrainer _
  | fenceCas c =>
    simp only [hsd] at hs
    split at hs <;> obtain ⟨rfl, -⟩ := Prod.mk.inj (Option.some.inj hs)
    · rename_i hg
      replace hg : s.gate (c % N) = .free c := hg
      rw [hsd] at hd
      obtain ⟨rfl, hlt⟩ := hd
      have hok := h.gates _ (Nat.mod_lt s.cursor hN)
      rw [hg] at hok
      refine Inv.setDrainer (h.move (t := s.cursor) (g := .fenced s.cursor) hlt (by rw [hg]; rfl) ?_ ?_ ?_) _
      · exact ⟨rfl, hok.2.1, hlt, Nat.le_refl _⟩
      · intro p hp hholds
        have hw := h.writers p hp
        cases hwp : s.writers p <;> rw [hwp] at hw hholds <;>
          simp only [Writer.holds, reduceCtorEq, Option.some.injEq] at hholds <;> subst hholds
        · simp [WriterOk]
        · simpa [WriterOk] using hw.2
        · exact absurd (hg.symm.trans hw) (by simp)
        · exact absurd (hg.symm.trans hw) (by simp)
      · exact fun _ => Or.inr rfl
    · exact h.setDrainer _
  | fenceAdvancing c =>
    simp only [hsd] at hs
    obtain ⟨rfl, -⟩ := Prod.mk.inj (Option.some.inj hs)
    rw [hsd] at hd
    obtain ⟨rfl, h2, h3⟩ := hd
    exact (h.advance h2 h3).setDrainer _

theorem beginRelease (h : Inv N s) {t : Nat} (ht : t < s.head)
    (hstop : ∀ p, (s.writers p).holds = some t → s.stopped p = true) :
    Inv N (beginRelease (unbounded N) N s 0 t).1 := by
  unfold Ring.beginRelease
  split
  · rename_i hg
    refine ⟨h.cursor_le, h.gates, h.cells, ?_, h.held, h.owner, ?_, ?_⟩
    · exact fun p hp => (h.writers p hp).congr rfl (fun _ => rfl) (fun _ => rfl)
    · intro t' ht'
      obtain rfl : t = t' := by simpa using ht'
      exact ⟨ht, hg, hstop⟩
    · intro k hk
      simpa [hk] using h.hosts k hk
  · split <;> exact h

/-- The host's store. -/
theorem endRelease (h : Inv N s) (hN : 0 < N) {t : Nat} (hh : s.hosts 0 = .releasing t) :
    Inv N ((s.setGate (t % N) (.free (t + N))).setHost 0 .idle) := by
  obtain ⟨ht, hg, hstop⟩ := h.host t hh
  have hok := h.gates _ (Nat.mod_lt t hN)
  have hle := h.cursor_le
  have h1 : Inv N (s.setHost 0 .idle) := by
    refine ⟨h.cursor_le, h.gates, h.cells, ?_, h.held, h.owner, by simp, ?_⟩
    · exact fun p hp => (h.writers p hp).congr rfl (fun _ => rfl) (fun _ => rfl)
    · intro k hk
      simpa [hk] using h.hosts k hk
  have hticket : (s.gate (t % N)).ticket = t := by rcases hg with h' | h' <;> rw [h'] <;> rfl
  have hwin := hok.window
  rw [hticket] at hwin
  refine h1.move (t := t) (g := .free (t + N)) ht hticket ?_ ?_ (by simp)
  · refine ⟨by simp, ?_, ?_, ?_⟩ <;> simp only [State.setHost_head, State.setHost_cursor] <;> omega
  · intro p hp hholds
    have := hstop p hholds
    simp only [State.setHost_stopped] at hp
    simp [this] at hp

end Inv

end Horton.Ring
