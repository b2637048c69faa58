import Horton.Ring.Unbounded

/-!
# The outcomes of a run

The trace of a run over unbounded tickets, tied to the state it has led to: a published payload sits in its slot until
the drainer has taken it, a ticket's slot is free for the next lap exactly when the trace says so, and no ticket is both
published and fenced.
-/

namespace Horton.Ring

open Bytes

def Event.claimedTicket : Event → Option Nat
  | .claimed _ t => some t
  | _ => none

def Event.drainedTicket : Event → Option Nat
  | .drained t _ => some t
  | _ => none

/-- Outcomes that change nothing in the record of claimed, published, fenced, drained and freed tickets. -/
def Event.Silent : Event → Prop
  | .refused _ | .skipped _ | .awaiting _ | .fencedCursor _ | .notFenced _ | .released _ | .alreadyPublished _
  | .stale _ => True
  | _ => False

/-- The outcomes so far, and how they bind the state. -/
structure Log (N seed : Nat) (s : State Gate) (tr : List Event) : Prop where
  start : seed ≤ s.cursor
  drainer : DrainerOk N s tr s.drainer
  claims : tr.filterMap Event.claimedTicket = List.range' seed (s.head - seed)
  holder : ∀ p t, (s.writers p).holds = some t → .claimed p t ∈ tr ∧ (∀ q payload, .published q t payload ∉ tr) ∧
    ∀ q, .fenced q t ∉ tr
  published : ∀ p t payload, .published p t payload ∈ tr → t < s.head ∧ .claimed p t ∈ tr ∧
    ((t < s.cursor ∧ .drained t payload.1 ∈ tr) ∨
      (s.gate (t % N) = .published t ∧ s.cells (t % N) = payload.words) ∨ s.drainer = .advancing t payload.words)
  drained : ∀ t bytes, .drained t bytes ∈ tr → t < s.cursor ∧ (∃ p payload, .published p t payload ∈ tr) ∧
    ∀ p payload, .published p t payload ∈ tr → bytes = payload.1
  fenced : ∀ p t, .fenced p t ∈ tr → t < s.head ∧ ∀ q payload, .published q t payload ∉ tr
  source : ∀ t, s.gate (t % N) = .published t → ∃ p payload, .published p t payload ∈ tr
  freed : ∀ t, .freed t ∈ tr → t < s.head ∧ t < (s.gate (t % N)).ticket
  live : ∀ t, seed ≤ t → t < s.head → .freed t ∉ tr → (s.gate (t % N)).ticket = t
  order : (tr.filterMap Event.drainedTicket).Pairwise (· < ·)

variable {N seed : Nat} {s : State Gate} {tr : List Event}

/-! ### What the drainer knows survives the other parties -/

theorem DrainerOk.mono {d : Drainer} (h : DrainerOk N s tr d) (evs : List Event) : DrainerOk N s (tr ++ evs) d := by
  cases d with
  | advancing c words =>
    obtain ⟨h1, h2, h3, p, payload, h4, h5⟩ := h
    exact ⟨h1, h2, h3, p, payload, List.mem_append_left _ h4, h5⟩
  | _ => exact h

theorem DrainerOk.congr {s' : State Gate} {d : Drainer} (h : DrainerOk N s tr d) (hc : s'.cursor = s.cursor)
    (hh : s.head ≤ s'.head) (hg : ∀ i, s'.gate i = s.gate i) (hcell : ∀ i, s'.cells i = s.cells i) :
    DrainerOk N s' tr d := by
  cases d with
  | idle => trivial
  | polling c => exact h.trans hc.symm
  | fencing c => exact h.trans hc.symm
  | reading c words => simpa only [DrainerOk, hc, hg, hcell] using h
  | releasing c words => simpa only [DrainerOk, hc, hg, hcell] using h
  | advancing c words =>
    obtain ⟨h1, h2, h3, h4⟩ := h
    exact ⟨h1.trans hc.symm, h2.trans_le hh, by rwa [hg], h4⟩
  | skipping c => exact ⟨h.1.trans hc.symm, h.2.1.trans_le hh, by rw [hg]; exact h.2.2⟩
  | fenceAdvancing c => exact ⟨h.1.trans hc.symm, h.2.1.trans_le hh, by rw [hg]; exact h.2.2⟩
  | fenceCas c => exact ⟨h.1.trans hc.symm, h.2.trans_le hh⟩

/-- A slot whose gate is not published is not the one being read, and gates only move forward. -/
theorem DrainerOk.move {d : Drainer} (h : DrainerOk N s tr d) {t : Nat} {g : Gate}
    (hgt : (s.gate (t % N)).ticket = t) (hnp : s.gate (t % N) ≠ .published t)
    (hg : t < g.ticket ∨ (g.ticket = t ∧ s.gate (t % N) = .free t)) : DrainerOk N (s.setGate (t % N) g) tr d := by
  have hbeyond : ∀ c, (s.gate (c % N)).Beyond c → ((s.setGate (t % N) g).gate (c % N)).Beyond c := by
    intro c hb
    rw [State.gate_setGate]
    split
    · rename_i hslot
      rw [hslot] at hb
      rcases hb with hb | hb
      · rcases hg with hg | ⟨-, hfree⟩
        · have : t = c := by rw [← hgt, hb]; rfl
          exact Or.inr (this ▸ hg)
        · rw [hfree] at hb
          cases hb
      · right
        omega
    · exact hb
  have hread : ∀ c, s.gate (c % N) = .published c → c % N ≠ t % N := by
    intro c hc hslot
    rw [hslot] at hc
    have : c = t := by rw [← hgt, hc]; rfl
    exact hnp (this ▸ hc)
  cases d with
  | idle => trivial
  | polling c => exact h
  | fencing c => exact h
  | reading c words =>
    obtain ⟨h1, h2, h3, h4⟩ := h
    exact ⟨h1, by rw [State.gate_setGate, if_neg (hread c h2)]; exact h2, h3, by rwa [State.cells_setGate]⟩
  | releasing c words =>
    obtain ⟨h1, h2, h3⟩ := h
    exact ⟨h1, by rw [State.gate_setGate, if_neg (hread c h2)]; exact h2, by rwa [State.cells_setGate]⟩
  | advancing c words =>
    obtain ⟨h1, h2, h3, h4⟩ := h
    refine ⟨h1, h2, ?_, h4⟩
    rw [State.gate_setGate]
    split
    · rename_i hslot
      rw [hslot] at h3
      omega
    · exact h3
  | skipping c => exact ⟨h.1, h.2.1, hbeyond c h.2.2⟩
  | fenceAdvancing c => exact ⟨h.1, h.2.1, hbeyond c h.2.2⟩
  | fenceCas c => exact h

/-! ### What each kind of step adds to the trace -/

private theorem not_silent {e : Event} {x : Event} (he : e.Silent) (hx : ¬ x.Silent) : x ∉ [e] := by
  intro h
  rw [List.mem_singleton] at h
  exact hx (h ▸ he)

namespace Log

theorem silent (h : Log N seed s tr) {e : Event} (he : e.Silent) : Log N seed s (tr ++ [e]) := by
  have hiff : ∀ {x : Event}, ¬ x.Silent → (x ∈ tr ++ [e] ↔ x ∈ tr) := by
    intro x hx
    simp [not_silent he hx |> List.mem_singleton.not.mp]
  have hc : e.claimedTicket = none := by cases e <;> first | rfl | exact absurd he (by simp [Event.Silent])
  have hd : e.drainedTicket = none := by cases e <;> first | rfl | exact absurd he (by simp [Event.Silent])
  refine ⟨h.start, h.drainer.mono _, ?_, ?_, ?_, ?_, ?_, ?_, ?_, ?_, ?_⟩
  · rw [List.filterMap_append, List.filterMap_cons, hc]
    simpa using h.claims
  · intro p t hp
    obtain ⟨h1, h2, h3⟩ := h.holder p t hp
    exact ⟨(hiff id).mpr h1, fun q pl => by rw [hiff id]; exact h2 q pl, fun q => by rw [hiff id]; exact h3 q⟩
  · intro p t payload hp
    obtain ⟨h1, h2, h3⟩ := h.published p t payload ((hiff id).mp hp)
    refine ⟨h1, (hiff id).mpr h2, ?_⟩
    rw [hiff id]
    exact h3
  · intro t bytes ht
    obtain ⟨h1, ⟨p, payload, h2⟩, h3⟩ := h.drained t bytes ((hiff id).mp ht)
    exact ⟨h1, ⟨p, payload, (hiff id).mpr h2⟩, fun q payload' hq => h3 q payload' ((hiff id).mp hq)⟩
  · intro p t ht
    obtain ⟨h1, h2⟩ := h.fenced p t ((hiff id).mp ht)
    exact ⟨h1, fun q pl => by rw [hiff id]; exact h2 q pl⟩
  · intro t ht
    obtain ⟨p, payload, h1⟩ := h.source t ht
    exact ⟨p, payload, (hiff id).mpr h1⟩
  · exact fun t ht => h.freed t ((hiff id).mp ht)
  · exact fun t h1 h2 h3 => h.live t h1 h2 (fun hx => h3 ((hiff id).mpr hx))
  · rw [List.filterMap_append, List.filterMap_cons, hd]
    simpa using h.order

/-- A change that leaves head, cursor, gates and the cells in use alone, and gives no writer a ticket. -/
theorem congr (h : Log N seed s tr) {s' : State Gate} (hh : s'.head = s.head) (hc : s'.cursor = s.cursor)
    (hg : ∀ i, s'.gate i = s.gate i) (hcell : ∀ t, s.gate (t % N) = .published t → s'.cells (t % N) = s.cells (t % N))
    (hw : ∀ p t, (s'.writers p).holds = some t → (s.writers p).holds = some t)
    (hadv : ∀ t words, s.drainer = .advancing t words → s'.drainer = .advancing t words)
    (hd : DrainerOk N s' tr s'.drainer) : Log N seed s' tr := by
  refine ⟨hc ▸ h.start, hd, hh ▸ h.claims, fun p t hp => h.holder p t (hw p t hp), ?_, ?_, ?_, ?_, ?_, ?_, h.order⟩
  · intro p t payload hp
    obtain ⟨h1, h2, h3⟩ := h.published p t payload hp
    refine ⟨hh ▸ h1, h2, ?_⟩
    rcases h3 with ⟨h3, h4⟩ | ⟨h3, h4⟩ | h3
    · exact Or.inl ⟨hc ▸ h3, h4⟩
    · exact Or.inr (Or.inl ⟨by rw [hg, h3], by rw [hcell t h3, h4]⟩)
    · exact Or.inr (Or.inr (hadv _ _ h3))
  · rw [hc]; exact h.drained
  · rw [hh]; exact h.fenced
  · exact fun t ht => h.source t (by rw [← hg]; exact ht)
  · exact fun t ht => by rw [hh, hg]; exact h.freed t ht
  · exact fun t h1 h2 h3 => by rw [hg]; exact h.live t h1 (hh ▸ h2) h3

theorem setWriter (h : Log N seed s tr) {p : Nat} {w : Writer}
    (hold : ∀ t, w.holds = some t → (s.writers p).holds = some t) : Log N seed (s.setWriter p w) tr := by
  refine h.congr rfl rfl (fun _ => rfl) (fun _ _ => rfl) ?_ (fun _ _ h' => h') ?_
  · intro q t hq
    by_cases hqp : q = p
    · subst hqp
      exact hold t (by simpa using hq)
    · simpa [hqp] using hq
  · exact h.drainer.congr rfl (Nat.le_refl _) (fun _ => rfl) (fun _ => rfl)

/-- The drainer goes on within its call, not from the point where it has freed the slot. -/
theorem setDrainer (h : Log N seed s tr) {d : Drainer} (hn : ∀ t words, s.drainer ≠ .advancing t words)
    (hd : DrainerOk N s tr d) : Log N seed { s with drainer := d } tr :=
  h.congr rfl rfl (fun _ => rfl) (fun _ _ => rfl) (fun _ _ h' => h') (fun t words h' => absurd h' (hn t words))
    (hd.congr rfl (Nat.le_refl _) (fun _ => rfl) (fun _ => rfl))

theorem seed_le_head (h : Log N seed s tr) (hi : Inv N s) : seed ≤ s.head := h.start.trans hi.cursor_le

theorem claim (h : Log N seed s tr) (hi : Inv N s) {p : Nat} (hg : s.gate (s.head % N) = .free s.head) :
    Log N seed { s.setWriter p (.claimed s.head) with head := s.head + 1 } (tr ++ [.claimed p s.head]) := by
  have hle := h.seed_le_head hi
  refine ⟨h.start, ?_, ?_, ?_, ?_, ?_, ?_, ?_, ?_, ?_, ?_⟩
  · exact (h.drainer.mono _).congr rfl (Nat.le_succ _) (fun _ => rfl) (fun _ => rfl)
  · show _ = List.range' seed (s.head + 1 - seed)
    rw [List.filterMap_append, h.claims, show s.head + 1 - seed = (s.head - seed) + 1 by omega, List.range'_concat]
    simp [Event.claimedTicket, hle]
  · intro q t hq
    by_cases hqp : q = p
    · subst hqp
      obtain rfl : s.head = t := by simpa [Writer.holds] using hq
      refine ⟨by simp, fun r payload hr => ?_, fun r hr => ?_⟩
      · exact absurd (h.published r _ payload (by simpa using hr)).1 (Nat.lt_irrefl _)
      · exact absurd (h.fenced r _ (by simpa using hr)).1 (Nat.lt_irrefl _)
    · obtain ⟨h1, h2, h3⟩ := h.holder q t (by simpa [hqp] using hq)
      exact ⟨List.mem_append_left _ h1, by simpa using h2, by simpa using h3⟩
  · intro q t payload hq
    obtain ⟨h1, h2, h3⟩ := h.published q t payload (by simpa using hq)
    refine ⟨Nat.lt_succ_of_lt h1, List.mem_append_left _ h2, ?_⟩
    rcases h3 with ⟨h3, h4⟩ | h3 | h3
    · exact Or.inl ⟨h3, List.mem_append_left _ h4⟩
    · exact Or.inr (Or.inl h3)
    · exact Or.inr (Or.inr h3)
  · intro t bytes ht
    obtain ⟨h1, ⟨q, payload, h2⟩, h3⟩ := h.drained t bytes (by simpa using ht)
    exact ⟨h1, ⟨q, payload, List.mem_append_left _ h2⟩, by simpa using h3⟩
  · intro q t hq
    obtain ⟨h1, h2⟩ := h.fenced q t (by simpa using hq)
    exact ⟨Nat.lt_succ_of_lt h1, by simpa using h2⟩
  · intro t ht
    obtain ⟨q, payload, h1⟩ := h.source t ht
    exact ⟨q, payload, List.mem_append_left _ h1⟩
  · intro t ht
    obtain ⟨h1, h2⟩ := h.freed t (by simpa using ht)
    exact ⟨Nat.lt_succ_of_lt h1, h2⟩
  · intro t h1 h2 h3
    show (s.gate (t % N)).ticket = t
    rcases Nat.lt_succ_iff_lt_or_eq.mp h2 with h2 | rfl
    · exact h.live t h1 h2 (by simpa using h3)
    · rw [hg]; rfl
  · rw [List.filterMap_append]
    simpa [List.filterMap_cons, Event.drainedTicket] using h.order

/-- The owner publishes: the gate takes the ticket's payload over. -/
theorem publish (h : Log N seed s tr) (hi : Inv N s) {p t : Nat} {payload : Payload} (hp : s.stopped p = false)
    (hw : s.writers p = .storing t payload 8) (hg : s.gate (t % N) = .free t) :
    Log N seed ((s.setGate (t % N) (.published t)).setWriter p .idle) (tr ++ [.published p t payload]) := by
  have hholds : (s.writers p).holds = some t := by rw [hw]; rfl
  obtain ⟨hclaimed, hnp, hnf⟩ := h.holder p t hholds
  have hcells : s.cells (t % N) = payload.words := by
    have hwo := hi.writers p hp
    rw [hw] at hwo
    refine List.ext_getElem? fun j => ?_
    by_cases hj : j < 8
    · rw [hwo.2.2 j hj, Payload.words, List.getElem?_map, List.getElem?_range hj]
      rfl
    · rw [List.getElem?_eq_none (by rw [hi.cells]; omega), List.getElem?_eq_none (by simp [Payload.words]; omega)]
  have hticket : ∀ i, ((s.setGate (t % N) (.published t)).gate i).ticket = (s.gate i).ticket := by
    intro i
    rw [State.gate_setGate]
    split
    · subst i; rw [hg]; rfl
    · rfl
  have hkeep : ∀ t', t' % N ≠ t % N →
      ((s.setGate (t % N) (.published t)).setWriter p .idle).gate (t' % N) = s.gate (t' % N) := by
    intro t' hne
    rw [State.gate_setWriter, State.gate_setGate, if_neg hne]
  refine ⟨h.start, ?_, ?_, ?_, ?_, ?_, ?_, ?_, ?_, ?_, ?_⟩
  · have hm := (h.drainer.move (t := t) (g := .published t) (by rw [hg]; rfl) (by simp [hg]) (Or.inr ⟨rfl, hg⟩)).mono
      [.published p t payload]
    exact hm.congr rfl (Nat.le_refl _) (fun _ => rfl) (fun _ => rfl)
  · simpa [Event.claimedTicket, List.filterMap_cons] using h.claims
  · intro q t' hq
    have hqp : q ≠ p := by
      rintro rfl
      simp [Writer.holds] at hq
    replace hq : (s.writers q).holds = some t' := by simpa [hqp] using hq
    obtain ⟨h1, h2, h3⟩ := h.holder q t' hq
    have hne : t' ≠ t := by
      rintro rfl
      exact hqp (hi.owner q p t' hq hholds)
    exact ⟨List.mem_append_left _ h1, fun r pl => by simp [h2 r pl, hne], fun r => by simp [h3 r]⟩
  · intro q t' payload' hq
    rcases List.mem_append.mp hq with hq | hq
    · obtain ⟨h1, h2, h3⟩ := h.published q t' payload' hq
      refine ⟨h1, List.mem_append_left _ h2, ?_⟩
      rcases h3 with ⟨h3, h4⟩ | ⟨h3, h4⟩ | h3
      · exact Or.inl ⟨h3, List.mem_append_left _ h4⟩
      · refine Or.inr (Or.inl ⟨?_, by simpa using h4⟩)
        rw [hkeep t']
        · exact h3
        · intro hslot
          rw [hslot, hg] at h3
          cases h3
      · exact Or.inr (Or.inr h3)
    · obtain ⟨rfl, rfl, rfl⟩ : q = p ∧ t' = t ∧ payload' = payload := by simpa using hq
      exact ⟨hi.held q t' hholds, List.mem_append_left _ hclaimed, Or.inr (Or.inl ⟨by simp, by simpa using hcells⟩)⟩
  · intro t' bytes ht'
    obtain ⟨h1, ⟨q, payload', h2⟩, h3⟩ := h.drained t' bytes (by simpa using ht')
    have hne : t' ≠ t := by
      rintro rfl
      exact hnp q payload' h2
    refine ⟨h1, ⟨q, payload', List.mem_append_left _ h2⟩, fun r payload'' hr => h3 r payload'' ?_⟩
    simpa [hne] using hr
  · intro q t' hq
    replace hq : Event.fenced q t' ∈ tr := by simpa using hq
    obtain ⟨h1, h2⟩ := h.fenced q t' hq
    have hne : t' ≠ t := by
      rintro rfl
      exact hnf q hq
    exact ⟨h1, fun r pl => by simp [h2 r pl, hne]⟩
  · intro t' ht'
    by_cases hslot : t' % N = t % N
    · rw [State.gate_setWriter, hslot, State.gate_setGate, if_pos rfl, Gate.published.injEq] at ht'
      subst ht'
      exact ⟨p, payload, by simp⟩
    · rw [hkeep t' hslot] at ht'
      obtain ⟨q, payload', h1⟩ := h.source t' ht'
      exact ⟨q, payload', List.mem_append_left _ h1⟩
  · intro t' ht'
    obtain ⟨h1, h2⟩ := h.freed t' (by simpa using ht')
    exact ⟨h1, by rw [State.gate_setWriter, hticket]; exact h2⟩
  · intro t' h1 h2 h3
    rw [State.gate_setWriter, hticket]
    exact h.live t' h1 h2 (by simpa using h3)
  · simpa [List.filterMap_append, List.filterMap_cons, Event.drainedTicket] using h.order

/-- The slot of an unpublished ticket is given to the next lap. -/
theorem free (h : Log N seed s tr) (hN : 0 < N) {t : Nat} (ht : t < s.head) (hgt : (s.gate (t % N)).ticket = t)
    (hnp : s.gate (t % N) ≠ .published t) :
    Log N seed (s.setGate (t % N) (.free (t + N))) (tr ++ [.freed t]) := by
  have hkeep : ∀ t', t' % N ≠ t % N → (s.setGate (t % N) (.free (t + N))).gate (t' % N) = s.gate (t' % N) := by
    intro t' hne
    rw [State.gate_setGate, if_neg hne]
  have hpub : ∀ t', s.gate (t' % N) = .published t' → t' % N ≠ t % N := by
    intro t' ht' hslot
    rw [hslot] at ht'
    have : t' = t := by rw [← hgt, ht']; rfl
    exact hnp (this ▸ ht')
  refine ⟨h.start, ?_, ?_, ?_, ?_, ?_, ?_, ?_, ?_, ?_, ?_⟩
  · exact (h.drainer.move hgt hnp (Or.inl (by simp only [Gate.ticket]; omega))).mono _
  · simpa [Event.claimedTicket, List.filterMap_cons] using h.claims
  · intro q t' hq
    obtain ⟨h1, h2, h3⟩ := h.holder q t' hq
    exact ⟨List.mem_append_left _ h1, by simpa using h2, by simpa using h3⟩
  · intro q t' payload' hq
    obtain ⟨h1, h2, h3⟩ := h.published q t' payload' (by simpa using hq)
    refine ⟨h1, List.mem_append_left _ h2, ?_⟩
    rcases h3 with ⟨h3, h4⟩ | ⟨h3, h4⟩ | h3
    · exact Or.inl ⟨h3, List.mem_append_left _ h4⟩
    · exact Or.inr (Or.inl ⟨by rw [hkeep t' (hpub t' h3)]; exact h3, by simpa using h4⟩)
    · exact Or.inr (Or.inr h3)
  · intro t' bytes ht'
    obtain ⟨h1, ⟨q, payload', h2⟩, h3⟩ := h.drained t' bytes (by simpa using ht')
    exact ⟨h1, ⟨q, payload', List.mem_append_left _ h2⟩, by simpa using h3⟩
  · intro q t' hq
    obtain ⟨h1, h2⟩ := h.fenced q t' (by simpa using hq)
    exact ⟨h1, by simpa using h2⟩
  · intro t' ht'
    have hslot : t' % N ≠ t % N := by
      intro hslot
      rw [hslot, State.gate_setGate, if_pos rfl] at ht'
      cases ht'
    rw [hkeep t' hslot] at ht'
    obtain ⟨q, payload', h1⟩ := h.source t' ht'
    exact ⟨q, payload', List.mem_append_left _ h1⟩
  · intro t' ht'
    rcases List.mem_append.mp ht' with ht' | ht'
    · obtain ⟨h1, h2⟩ := h.freed t' ht'
      refine ⟨h1, ?_⟩
      by_cases hslot : t' % N = t % N
      · rw [hslot, hgt] at h2
        rw [State.gate_setGate, if_pos hslot]
        exact Nat.lt_add_right _ h2
      · rwa [hkeep t' hslot]
    · obtain rfl : t' = t := by simpa using ht'
      refine ⟨ht, ?_⟩
      rw [State.gate_setGate, if_pos rfl]
      exact Nat.lt_add_of_pos_right hN
  · intro t' h1 h2 h3
    have hne : t' ≠ t := by
      rintro rfl
      simp at h3
    have hlive := h.live t' h1 h2 (fun hx => h3 (List.mem_append_left _ hx))
    rw [hkeep t']
    · exact hlive
    · intro hslot
      rw [hslot, hgt] at hlive
      exact hne hlive.symm
  · simpa [List.filterMap_append, List.filterMap_cons, Event.drainedTicket] using h.order

/-- A fenced writer leaves its call. -/
theorem fence (h : Log N seed s tr) {p t : Nat} (hp : (s.writers p).holds = some t) (ht : t < s.head)
    (hown : ∀ q, (s.writers q).holds = some t → q = p) :
    Log N seed (s.setWriter p .idle) (tr ++ [.fenced p t]) := by
  obtain ⟨hclaimed, hnp, hnf⟩ := h.holder p t hp
  have h1 : Log N seed (s.setWriter p .idle) tr := h.setWriter (by simp [Writer.holds])
  refine ⟨h1.start, h1.drainer.mono _, ?_, ?_, ?_, ?_, ?_, ?_, ?_, ?_, ?_⟩
  · simpa [Event.claimedTicket, List.filterMap_cons] using h.claims
  · intro q t' hq
    have hqp : q ≠ p := by
      rintro rfl
      simp [Writer.holds] at hq
    obtain ⟨h2, h3, h4⟩ := h1.holder q t' hq
    have hne : t' ≠ t := by
      rintro rfl
      exact hqp (hown q (by simpa [hqp] using hq))
    exact ⟨List.mem_append_left _ h2, fun r pl => by simp [h3 r pl], fun r => by simp [h4 r, hne]⟩
  · intro q t' payload' hq
    obtain ⟨h2, h3, h4⟩ := h1.published q t' payload' (by simpa using hq)
    refine ⟨h2, List.mem_append_left _ h3, ?_⟩
    rcases h4 with ⟨h4, h5⟩ | h4 | h4
    · exact Or.inl ⟨h4, List.mem_append_left _ h5⟩
    · exact Or.inr (Or.inl h4)
    · exact Or.inr (Or.inr h4)
  · intro t' bytes ht'
    obtain ⟨h2, ⟨q, payload', h3⟩, h4⟩ := h1.drained t' bytes (by simpa using ht')
    exact ⟨h2, ⟨q, payload', List.mem_append_left _ h3⟩, by simpa using h4⟩
  · intro q t' hq
    rcases List.mem_append.mp hq with hq | hq
    · obtain ⟨h2, h3⟩ := h1.fenced q t' hq
      exact ⟨h2, by simpa using h3⟩
    · obtain ⟨rfl, rfl⟩ : q = p ∧ t' = t := by simpa using hq
      exact ⟨ht, by simpa using hnp⟩
  · intro t' ht'
    obtain ⟨q, payload', h2⟩ := h1.source t' ht'
    exact ⟨q, payload', List.mem_append_left _ h2⟩
  · exact fun t' ht' => h1.freed t' (by simpa using ht')
  · exact fun t' h2 h3 h4 => h1.live t' h2 h3 (by simpa using h4)
  · simpa [List.filterMap_append, List.filterMap_cons, Event.drainedTicket] using h.order

/-- The drainer's fence takes the gate of the unpublished cursor ticket. -/
theorem fenceGate (h : Log N seed s tr) (hc : s.cursor < s.head) (hg : s.gate (s.cursor % N) = .free s.cursor)
    (hn : ∀ t words, s.drainer ≠ .advancing t words) :
    Log N seed { s.setGate (s.cursor % N) (.fenced s.cursor) with drainer := .fenceAdvancing s.cursor } tr := by
  have hticket : ∀ i, ((s.setGate (s.cursor % N) (.fenced s.cursor)).gate i).ticket = (s.gate i).ticket := by
    intro i
    rw [State.gate_setGate]
    split
    · subst i; rw [hg]; rfl
    · rfl
  have hpub : ∀ t, (s.setGate (s.cursor % N) (.fenced s.cursor)).gate (t % N) = .published t ↔
      s.gate (t % N) = .published t := by
    intro t
    rw [State.gate_setGate]
    split
    · rename_i hslot
      rw [hslot, hg]
      simp
    · rfl
  refine ⟨h.start, ⟨rfl, hc, ?_⟩, h.claims, h.holder, ?_, h.drained, h.fenced, ?_, ?_, ?_, h.order⟩
  · left
    show (s.setGate (s.cursor % N) (.fenced s.cursor)).gate (s.cursor % N) = .fenced s.cursor
    simp
  · intro p t payload hp
    obtain ⟨h1, h2, h3⟩ := h.published p t payload hp
    refine ⟨h1, h2, ?_⟩
    rcases h3 with h3 | ⟨h3, h4⟩ | h3
    · exact Or.inl h3
    · refine Or.inr (Or.inl ⟨(hpub t).mpr h3, ?_⟩)
      exact (State.cells_setGate s _ _ _).trans h4
    · exact absurd h3 (hn _ _)
  · exact fun t ht => h.source t ((hpub t).mp ht)
  · exact fun t ht => ⟨(h.freed t ht).1, (hticket _).symm ▸ (h.freed t ht).2⟩
  · exact fun t h1 h2 h3 => (hticket _).trans (h.live t h1 h2 h3)

/-- The cursor passes a ticket without its payload. -/
theorem pass (h : Log N seed s tr) (hn : ∀ t words, s.drainer ≠ .advancing t words) :
    Log N seed { s with cursor := s.cursor + 1, drainer := .idle } tr := by
  refine ⟨Nat.le_succ_of_le h.start, trivial, h.claims, h.holder, ?_, ?_, h.fenced, h.source, h.freed, h.live, h.order⟩
  · intro p t payload hp
    obtain ⟨h1, h2, h3⟩ := h.published p t payload hp
    refine ⟨h1, h2, ?_⟩
    rcases h3 with ⟨h3, h4⟩ | h3 | h3
    · exact Or.inl ⟨Nat.lt_succ_of_lt h3, h4⟩
    · exact Or.inr (Or.inl h3)
    · exact absurd h3 (hn _ _)
  · intro t bytes ht
    exact ⟨Nat.lt_succ_of_lt (h.drained t bytes ht).1, (h.drained t bytes ht).2⟩

end Log

/-- A payload survives its eight words. -/
theorem payloadOf_words (payload : Payload) : payloadOf payload.words = payload.1 := by
  obtain ⟨bytes, hb⟩ := payload
  have hword : ∀ i < 8, leBytes 4 (Payload.word ⟨bytes, hb⟩ i) = (bytes.drop (4 * i)).take 4 := by
    intro i hi
    have hl : ((bytes.drop (4 * i)).take 4).length = 4 := by simp; omega
    have := leBytes_leNat ((bytes.drop (4 * i)).take 4)
    rwa [hl] at this
  have hprefix : ∀ n ≤ 8, ((List.range n).map (Payload.word ⟨bytes, hb⟩)).flatMap (leBytes 4) = bytes.take (4 * n) := by
    intro n
    induction n with
    | zero => simp
    | succ n ih =>
      intro hn
      rw [List.range_succ, List.map_append, List.flatMap_append, ih (by omega), Nat.mul_succ, List.take_add]
      simp [hword n (by omega)]
  have := hprefix 8 (Nat.le_refl _)
  rw [List.take_of_length_le (by omega)] at this
  exact this

namespace Log

/-- The drainer frees the slot it has read, with the payload in hand. -/
theorem takePayload (h : Log N seed s tr) (hi : Inv N s) (hN : 0 < N) {words : List Nat}
    (hd : s.drainer = .releasing s.cursor words) :
    Log N seed { s.setGate (s.cursor % N) (.free (s.cursor + N)) with drainer := .advancing s.cursor words }
      (tr ++ [.freed s.cursor]) := by
  obtain ⟨-, hg, hwords⟩ : DrainerOk N s tr (.releasing s.cursor words) := hd ▸ h.drainer
  have hok := hi.gates _ (Nat.mod_lt s.cursor hN)
  rw [hg] at hok
  have hlt : s.cursor < s.head := hok.2.2.1
  -- the payload behind the gate
  have hsrc : ∀ p payload, .published p s.cursor payload ∈ tr → payload.words = words := by
    intro p payload hp
    rcases (h.published p _ payload hp).2.2 with ⟨h1, -⟩ | ⟨-, h2⟩ | h3
    · exact absurd h1 (Nat.lt_irrefl _)
    · rw [hwords, h2]
    · rw [hd] at h3
      cases h3
  obtain ⟨p, payload, hp⟩ := h.source _ hg
  have hkeep : ∀ t, t % N ≠ s.cursor % N →
      (s.setGate (s.cursor % N) (.free (s.cursor + N))).gate (t % N) = s.gate (t % N) := by
    intro t hne
    rw [State.gate_setGate, if_neg hne]
  refine ⟨h.start, ⟨rfl, hlt, ?_, p, payload, List.mem_append_left _ hp, (hsrc p payload hp).symm⟩,
    ?_, ?_, ?_, ?_, ?_, ?_, ?_, ?_, ?_⟩
  · show s.cursor < ((s.setGate (s.cursor % N) (.free (s.cursor + N))).gate (s.cursor % N)).ticket
    rw [State.gate_setGate, if_pos rfl]
    exact Nat.lt_add_of_pos_right hN
  · simpa [Event.claimedTicket, List.filterMap_cons] using h.claims
  · intro q t hq
    obtain ⟨h1, h2, h3⟩ := h.holder q t hq
    exact ⟨List.mem_append_left _ h1, by simpa using h2, by simpa using h3⟩
  · intro q t payload' hq
    replace hq : Event.published q t payload' ∈ tr := by simpa using hq
    obtain ⟨h1, h2, h3⟩ := h.published q t payload' hq
    refine ⟨h1, List.mem_append_left _ h2, ?_⟩
    by_cases htc : t = s.cursor
    · subst htc
      right; right
      show Drainer.advancing _ _ = _
      rw [hsrc q payload' hq]
    · rcases h3 with ⟨h3, h4⟩ | ⟨h3, h4⟩ | h3
      · exact Or.inl ⟨h3, List.mem_append_left _ h4⟩
      · refine Or.inr (Or.inl ⟨(hkeep t ?_).trans h3, (State.cells_setGate s _ _ _).trans h4⟩)
        intro hslot
        rw [hslot, hg, Gate.published.injEq] at h3
        exact htc h3.symm
      · rw [hd] at h3
        cases h3
  · intro t bytes ht
    obtain ⟨h1, ⟨q, payload', h2⟩, h3⟩ := h.drained t bytes (by simpa using ht)
    exact ⟨h1, ⟨q, payload', List.mem_append_left _ h2⟩, by simpa using h3⟩
  · intro q t hq
    obtain ⟨h1, h2⟩ := h.fenced q t (by simpa using hq)
    exact ⟨h1, by simpa using h2⟩
  · intro t ht
    replace ht : (s.setGate (s.cursor % N) (.free (s.cursor + N))).gate (t % N) = .published t := ht
    have hslot : t % N ≠ s.cursor % N := by
      intro hslot
      rw [hslot, State.gate_setGate, if_pos rfl] at ht
      cases ht
    rw [hkeep t hslot] at ht
    obtain ⟨q, payload', h1⟩ := h.source t ht
    exact ⟨q, payload', List.mem_append_left _ h1⟩
  · intro t ht
    show t < s.head ∧ t < ((s.setGate (s.cursor % N) (.free (s.cursor + N))).gate (t % N)).ticket
    rcases List.mem_append.mp ht with ht | ht
    · obtain ⟨h1, h2⟩ := h.freed t ht
      refine ⟨h1, ?_⟩
      by_cases hslot : t % N = s.cursor % N
      · rw [hslot, hg] at h2
        rw [State.gate_setGate, if_pos hslot]
        exact Nat.lt_add_right _ h2
      · rwa [hkeep t hslot]
    · obtain rfl : t = s.cursor := by simpa using ht
      refine ⟨hlt, ?_⟩
      rw [State.gate_setGate, if_pos rfl]
      exact Nat.lt_add_of_pos_right hN
  · intro t h1 h2 h3
    have hne : t ≠ s.cursor := by
      rintro rfl
      simp at h3
    have hlive := h.live t h1 h2 (fun hx => h3 (List.mem_append_left _ hx))
    refine (congrArg Gate.ticket (hkeep t ?_)).trans hlive
    intro hslot
    rw [hslot, hg] at hlive
    exact hne hlive.symm
  · simpa [List.filterMap_append, List.filterMap_cons, Event.drainedTicket] using h.order

/-- The drainer's call returns the payload and the cursor passes its ticket. -/
theorem drain (h : Log N seed s tr) {words : List Nat} (hd : s.drainer = .advancing s.cursor words) :
    Log N seed { s with cursor := s.cursor + 1, drainer := .idle } (tr ++ [.drained s.cursor (payloadOf words)]) := by
  obtain ⟨-, -, hpast, p, payload, hp, -⟩ : DrainerOk N s tr (.advancing s.cursor words) := hd ▸ h.drainer
  have hsrc : ∀ q payload', .published q s.cursor payload' ∈ tr → payload'.words = words := by
    intro q payload' hq
    rcases (h.published q _ payload' hq).2.2 with ⟨h1, -⟩ | ⟨h2, -⟩ | h3
    · exact absurd h1 (Nat.lt_irrefl _)
    · rw [h2] at hpast
      exact absurd hpast (Nat.lt_irrefl _)
    · rw [hd, Drainer.advancing.injEq] at h3
      exact h3.2.symm
  refine ⟨Nat.le_succ_of_le h.start, trivial, ?_, ?_, ?_, ?_, ?_, ?_, ?_, ?_, ?_⟩
  · simpa [Event.claimedTicket, List.filterMap_cons] using h.claims
  · intro q t hq
    obtain ⟨h1, h2, h3⟩ := h.holder q t hq
    exact ⟨List.mem_append_left _ h1, by simpa using h2, by simpa using h3⟩
  · intro q t payload' hq
    obtain ⟨h1, h2, h3⟩ := h.published q t payload' (by simpa using hq)
    refine ⟨h1, List.mem_append_left _ h2, ?_⟩
    rcases h3 with ⟨h3, h4⟩ | h3 | h3
    · exact Or.inl ⟨Nat.lt_succ_of_lt h3, List.mem_append_left _ h4⟩
    · exact Or.inr (Or.inl h3)
    · rw [hd, Drainer.advancing.injEq] at h3
      obtain ⟨rfl, rfl⟩ := h3
      exact Or.inl ⟨Nat.lt_succ_self _, by simp [payloadOf_words]⟩
  · intro t bytes ht
    rcases List.mem_append.mp ht with ht | ht
    · obtain ⟨h1, ⟨q, payload', h2⟩, h3⟩ := h.drained t bytes ht
      exact ⟨Nat.lt_succ_of_lt h1, ⟨q, payload', List.mem_append_left _ h2⟩, by simpa using h3⟩
    · obtain ⟨rfl, rfl⟩ : t = s.cursor ∧ bytes = payloadOf words := by simpa using ht
      refine ⟨Nat.lt_succ_self _, ⟨p, payload, List.mem_append_left _ hp⟩, fun q payload' hq => ?_⟩
      rw [← hsrc q payload' (by simpa using hq), payloadOf_words]
  · intro q t hq
    obtain ⟨h1, h2⟩ := h.fenced q t (by simpa using hq)
    exact ⟨h1, by simpa using h2⟩
  · intro t ht
    obtain ⟨q, payload', h1⟩ := h.source t ht
    exact ⟨q, payload', List.mem_append_left _ h1⟩
  · exact fun t ht => h.freed t (by simpa using ht)
  · exact fun t h1 h2 h3 => h.live t h1 h2 (by simpa using h3)
  · rw [List.filterMap_append, List.pairwise_append]
    refine ⟨h.order, by simp [Event.drainedTicket], ?_⟩
    intro t ht c hc
    obtain rfl : c = s.cursor := by simpa [List.filterMap_cons, Event.drainedTicket] using hc
    obtain ⟨ev, hev, htk⟩ := List.mem_filterMap.mp ht
    cases ev with
    | drained t' bytes =>
      obtain rfl : t' = t := by simpa [Event.drainedTicket] using htk
      exact (h.drained t' bytes hev).1
    | _ => simp [Event.drainedTicket] at htk

end Log

end Horton.Ring
