import Mathlib.Data.Nat.ModEq
import Horton.Ring.Trace

/-!
# Safety of the ring over unbounded tickets

Every run of the unbounded protocol keeps the invariant and the record of outcomes: each ticket is claimed once and
drained at most once, in ticket order and with the payload its claimer published; a published ticket that the cursor has
passed was drained, a fenced one never is, and live tickets have a slot of their own.
-/

namespace Horton.Ring

open Bytes

variable {N seed : Nat} {s s' : State Gate} {tr evs : List Event}

theorem Log.stepWriter (h : Log N seed s tr) (hi : Inv N s) (hN : 0 < N) {p : Nat} (hp : s.stopped p = false)
    (hs : Ring.stepWriter (unbounded N) N s p = some (s', evs)) : Log N seed s' (tr ++ evs) := by
  have hw := hi.writers p hp
  unfold Ring.stepWriter at hs
  cases hwp : s.writers p with
  | idle => simp [hwp] at hs
  | claimed t => simp [hwp] at hs
  | headLoaded t =>
    simp only [hwp] at hs
    split at hs <;> obtain ⟨rfl, rfl⟩ := Prod.mk.inj (Option.some.inj hs)
    · exact (h.setWriter (by simp [Writer.holds])).silent trivial
    · rw [List.append_nil]
      exact h.setWriter (by simp [Writer.holds])
  | gateMatched t =>
    rw [hwp] at hw
    simp only [hwp] at hs
    split at hs <;> obtain ⟨rfl, rfl⟩ := Prod.mk.inj (Option.some.inj hs)
    · rename_i heq
      subst heq
      exact h.claim hi (hw.2 rfl)
    · exact (h.setWriter (by simp [Writer.holds])).silent trivial
  | storing t payload i =>
    have hholds : (s.writers p).holds = some t := by rw [hwp]; rfl
    have hown := hi.ticket_of_running hp hholds
    rw [hwp] at hw
    simp only [hwp] at hs
    split at hs
    · obtain ⟨rfl, rfl⟩ := Prod.mk.inj (Option.some.inj hs)
      rw [List.append_nil]
      -- the slot is this writer's: nothing published sits in it and the drainer reads elsewhere
      have hne : ∀ c, s.gate (c % N) = .published c → c % N ≠ t % N := by
        intro c hc hslot
        rw [hslot] at hc
        rcases hown with h' | h' <;> rw [h'] at hc <;> cases hc
      have hcells : ∀ c, s.gate (c % N) = .published c →
          (s.setCell (t % N) i (payload.word i)).cells (c % N) = s.cells (c % N) := by
        intro c hc
        rw [State.cells_setCell, if_neg (hne c hc)]
      have hset : Log N seed (s.setCell (t % N) i (payload.word i)) tr := by
        refine h.congr rfl rfl (State.gate_setCell s _ _ _) hcells (fun _ _ h' => h') (fun _ _ h' => h') ?_
        show DrainerOk N _ tr s.drainer
        have hd := h.drainer
        cases hsd : s.drainer with
        | reading c words =>
          rw [hsd] at hd
          obtain ⟨h1, h2, h3, h4⟩ := hd
          exact ⟨h1, by rwa [State.gate_setCell], h3, by rw [hcells c h2]; exact h4⟩
        | releasing c words =>
          rw [hsd] at hd
          obtain ⟨h1, h2, h3⟩ := hd
          exact ⟨h1, by rwa [State.gate_setCell], by rw [hcells c h2]; exact h3⟩
        | idle => trivial
        | _ =>
          rw [hsd] at hd
          simpa [DrainerOk] using hd
      refine hset.setWriter fun t' ht' => ?_
      have : t = t' := by simpa [Writer.holds] using ht'
      rw [State.setCell_writers, hholds, this]
    · split at hs <;> obtain ⟨rfl, rfl⟩ := Prod.mk.inj (Option.some.inj hs)
      · rename_i h8 hg
        obtain rfl : i = 8 := Nat.le_antisymm hw.2.1 (Nat.not_lt.mp h8)
        exact h.publish hi hp hwp hg
      · rw [List.append_nil]
        exact h.setWriter (by simp [Writer.holds, hwp])
  | reloading t payload =>
    rw [hwp] at hw
    have hg : s.gate (t % N) = .fenced t := hw
    simp only [hwp, hg, unbounded, reduceCtorEq, ↓reduceIte] at hs
    obtain ⟨rfl, rfl⟩ := Prod.mk.inj (Option.some.inj hs)
    rw [List.append_nil]
    exact h.setWriter (by simp [Writer.holds, hwp])
  | selfReleasing t payload =>
    have hholds : (s.writers p).holds = some t := by rw [hwp]; rfl
    rw [hwp] at hw
    have hg : s.gate (t % N) = .fenced t := hw
    simp only [hwp, hg, unbounded, ↓reduceIte] at hs
    obtain ⟨rfl, rfl⟩ := Prod.mk.inj (Option.some.inj hs)
    have hok := hi.gates _ (Nat.mod_lt t hN)
    rw [hg] at hok
    have h1 := h.free hN hok.2.2.1 (by rw [hg]; rfl) (by simp [hg])
    have h2 := h1.fence hholds hok.2.2.1 fun q hq => hi.owner q p t hq hholds
    simpa [List.append_assoc] using h2

theorem Log.stepDrainer (h : Log N seed s tr) (hi : Inv N s) (hN : 0 < N)
    (hs : Ring.stepDrainer (unbounded N) N s = some (s', evs)) : Log N seed s' (tr ++ evs) := by
  have hd := h.drainer
  unfold Ring.stepDrainer at hs
  cases hsd : s.drainer with
  | idle => simp [hsd] at hs
  | polling c =>
    have hn : ∀ t words, s.drainer ≠ .advancing t words := by simp [hsd]
    rw [hsd] at hd
    obtain rfl : c = s.cursor := hd
    have hok := hi.gates _ (Nat.mod_lt s.cursor hN)
    simp only [hsd] at hs
    split at hs
    · rename_i hg
      obtain ⟨rfl, rfl⟩ := Prod.mk.inj (Option.some.inj hs)
      rw [List.append_nil]
      exact h.setDrainer hn ⟨rfl, hg, by simp, by simp⟩
    · split at hs <;> obtain ⟨rfl, rfl⟩ := Prod.mk.inj (Option.some.inj hs)
      · rename_i hpast
        rw [List.append_nil]
        replace hpast : (s.gate (s.cursor % N)).isPast s.cursor = true := hpast
        refine h.setDrainer hn ⟨rfl, ?_⟩
        have hres := hok.residue
        have hwin := hok.window
        cases hg : s.gate (s.cursor % N) with
        | fenced t =>
          rw [hg] at hpast hok
          obtain rfl : t = s.cursor := by simpa [Gate.isPast] using hpast
          exact ⟨hok.2.2.1, Or.inl rfl⟩
        | published t =>
          rw [hg] at hpast hok
          have hlt : s.cursor < t := by simpa [Gate.isPast] using hpast
          exact ⟨hlt.trans hok.2.2.1, Or.inr hlt⟩
        | free t =>
          rw [hg] at hpast hok
          have hlt : s.cursor < t := by simpa [Gate.isPast] using hpast
          refine ⟨?_, Or.inr hlt⟩
          have hlap : s.cursor + N ≤ t := Nat.ModEq.add_le_of_lt (show Nat.ModEq N s.cursor t from hok.1.symm) hlt
          have := hok.2.2.1
          omega
      · exact (h.setDrainer (d := .idle) hn trivial).silent trivial
  | reading c words =>
    have hn : ∀ t words, s.drainer ≠ .advancing t words := by simp [hsd]
    rw [hsd] at hd
    obtain ⟨rfl, hg, hlen, hwords⟩ := hd
    simp only [hsd] at hs
    obtain ⟨rfl, rfl⟩ := Prod.mk.inj (Option.some.inj hs)
    rw [List.append_nil]
    have hcl := hi.cells (s.cursor % N)
    have hnext : words ++ [(s.cells (s.cursor % N)).getD words.length 0] =
        (s.cells (s.cursor % N)).take (words.length + 1) := by
      rw [List.take_add_one, ← hwords, List.getD_eq_getElem?_getD, List.getElem?_eq_getElem (by omega)]
      rfl
    refine h.setDrainer hn ?_
    rw [hnext]
    have hlen' : ((s.cells (s.cursor % N)).take (words.length + 1)).length = words.length + 1 := by simp; omega
    split
    · refine ⟨rfl, hg, by assumption, ?_⟩
      rw [hlen']
    · refine ⟨rfl, hg, ?_⟩
      rw [List.take_of_length_le (by omega)]
  | releasing c words =>
    rw [hsd] at hd
    obtain ⟨rfl, -, -⟩ := hd
    simp only [hsd] at hs
    obtain ⟨rfl, rfl⟩ := Prod.mk.inj (Option.some.inj hs)
    exact h.takePayload hi hN hsd
  | advancing c words =>
    rw [hsd] at hd
    obtain ⟨rfl, -, -, -⟩ := hd
    simp only [hsd] at hs
    obtain ⟨rfl, rfl⟩ := Prod.mk.inj (Option.some.inj hs)
    exact h.drain hsd
  | skipping c =>
    have hn : ∀ t words, s.drainer ≠ .advancing t words := by simp [hsd]
    rw [hsd] at hd
    obtain ⟨rfl, -, -⟩ := hd
    simp only [hsd] at hs
    obtain ⟨rfl, rfl⟩ := Prod.mk.inj (Option.some.inj hs)
    exact (h.pass hn).silent trivial
  | fencing c =>
    have hn : ∀ t words, s.drainer ≠ .advancing t words := by simp [hsd]
    rw [hsd] at hd
    obtain rfl : c = s.cursor := hd
    simp only [hsd] at hs
    split at hs <;> obtain ⟨rfl, rfl⟩ := Prod.mk.inj (Option.some.inj hs)
    · exact (h.setDrainer (d := .idle) hn trivial).silent trivial
    · rename_i hne
      rw [List.append_nil]
      exact h.setDrainer hn ⟨rfl, lt_of_le_of_ne hi.cursor_le (Ne.symm hne)⟩
  | fenceCas c =>
    have hn : ∀ t words, s.drainer ≠ .advancing t words := by simp [hsd]
    rw [hsd] at hd
    obtain ⟨rfl, hlt⟩ := hd
    simp only [hsd] at hs
    split at hs <;> obtain ⟨rfl, rfl⟩ := Prod.mk.inj (Option.some.inj hs)
    · rename_i hg
      rw [List.append_nil]
      exact h.fenceGate hlt hg hn
    · exact (h.setDrainer (d := .idle) hn trivial).silent trivial
  | fenceAdvancing c =>
    have hn : ∀ t words, s.drainer ≠ .advancing t words := by simp [hsd]
    rw [hsd] at hd
    obtain ⟨rfl, -, -⟩ := hd
    simp only [hsd] at hs
    obtain ⟨rfl, rfl⟩ := Prod.mk.inj (Option.some.inj hs)
    exact (h.pass hn).silent trivial

/-! ### One step, and every run -/

theorem Inv.step (h : Inv N s) (hl : Log N seed s tr) (hN : 0 < N) {a : Action} (ha : Legal s a)
    (hs : step (unbounded N) N s a = some (s', evs)) : Inv N s' := by
  cases a with
  | claim p =>
    simp only [Ring.step] at hs
    split at hs
    · obtain ⟨rfl, -⟩ := Prod.mk.inj (Option.some.inj hs)
      exact h.setWriter (fun _ => Nat.le_refl _) (by simp [Writer.holds])
    · cases hs
  | publish p payload =>
    simp only [Ring.step] at hs
    split at hs
    · rename_i t hw
      split at hs
      · cases hs
      · rename_i hp
        obtain ⟨rfl, -⟩ := Prod.mk.inj (Option.some.inj hs)
        have hown := h.ticket_of_running (by simpa using hp) (by rw [hw]; rfl)
        exact h.setWriter (fun _ => ⟨hown, by simp, by simp⟩) (by simp [Writer.holds, hw])
    · cases hs
  | writer p =>
    simp only [Ring.step] at hs
    split at hs
    · cases hs
    · rename_i hp
      exact h.stepWriter hN (Bool.eq_false_of_not_eq_true hp) hs
  | stop p =>
    obtain ⟨rfl, -⟩ := Prod.mk.inj (Option.some.inj hs)
    exact h.stop p
  | poll =>
    simp only [Ring.step] at hs
    split at hs
    · obtain ⟨rfl, -⟩ := Prod.mk.inj (Option.some.inj hs)
      exact h.setDrainer _
    · cases hs
  | fence =>
    simp only [Ring.step] at hs
    split at hs
    · obtain ⟨rfl, -⟩ := Prod.mk.inj (Option.some.inj hs)
      exact h.setDrainer _
    · cases hs
  | drainer => exact h.stepDrainer hN hl.drainer hs
  | forceRelease k t =>
    obtain ⟨rfl, ht, hstop⟩ := ha
    simp only [Ring.step] at hs
    split at hs
    · have h1 : Ring.beginRelease (unbounded N) N s 0 t = (s', evs) := Option.some.inj hs
      have h2 := h.beginRelease ht hstop
      rw [h1] at h2
      exact h2
    · cases hs
  | host k =>
    simp only [Ring.step] at hs
    split at hs
    · cases hs
    · rename_i t hk
      obtain ⟨rfl, -⟩ := Prod.mk.inj (Option.some.inj hs)
      obtain rfl : k = 0 := by
        by_contra hne
        rw [h.hosts k hne] at hk
        cases hk
      exact h.endRelease hN hk

theorem Log.step (h : Log N seed s tr) (hi : Inv N s) (hN : 0 < N) {a : Action} (ha : Legal s a)
    (hs : Ring.step (unbounded N) N s a = some (s', evs)) : Log N seed s' (tr ++ evs) := by
  cases a with
  | claim p =>
    simp only [Ring.step] at hs
    split at hs
    · obtain ⟨rfl, rfl⟩ := Prod.mk.inj (Option.some.inj hs)
      rw [List.append_nil]
      exact h.setWriter (by simp [Writer.holds])
    · cases hs
  | publish p payload =>
    simp only [Ring.step] at hs
    split at hs
    · rename_i t hw
      split at hs
      · cases hs
      · obtain ⟨rfl, rfl⟩ := Prod.mk.inj (Option.some.inj hs)
        rw [List.append_nil]
        exact h.setWriter (by simp [Writer.holds, hw])
    · cases hs
  | writer p =>
    simp only [Ring.step] at hs
    split at hs
    · cases hs
    · rename_i hp
      exact h.stepWriter hi hN (Bool.eq_false_of_not_eq_true hp) hs
  | stop p =>
    obtain ⟨rfl, rfl⟩ := Prod.mk.inj (Option.some.inj hs)
    rw [List.append_nil]
    exact h.congr rfl rfl (fun _ => rfl) (fun _ _ => rfl) (fun _ _ h' => h') (fun _ _ h' => h')
      (h.drainer.congr rfl (Nat.le_refl _) (fun _ => rfl) (fun _ => rfl))
  | poll =>
    simp only [Ring.step] at hs
    split at hs
    · rename_i hd
      obtain ⟨rfl, rfl⟩ := Prod.mk.inj (Option.some.inj hs)
      rw [List.append_nil]
      exact h.setDrainer (by simp [hd]) rfl
    · cases hs
  | fence =>
    simp only [Ring.step] at hs
    split at hs
    · rename_i hd
      obtain ⟨rfl, rfl⟩ := Prod.mk.inj (Option.some.inj hs)
      rw [List.append_nil]
      exact h.setDrainer (by simp [hd]) rfl
    · cases hs
  | drainer => exact h.stepDrainer hi hN hs
  | forceRelease k t =>
    simp only [Ring.step] at hs
    split at hs
    · unfold beginRelease at hs
      split at hs
      · obtain ⟨rfl, rfl⟩ := Prod.mk.inj (Option.some.inj hs)
        rw [List.append_nil]
        exact h.congr rfl rfl (fun _ => rfl) (fun _ _ => rfl) (fun _ _ h' => h') (fun _ _ h' => h')
          (h.drainer.congr rfl (Nat.le_refl _) (fun _ => rfl) (fun _ => rfl))
      · split at hs <;> obtain ⟨rfl, rfl⟩ := Prod.mk.inj (Option.some.inj hs) <;> exact h.silent trivial
    · cases hs
  | host k =>
    simp only [Ring.step] at hs
    split at hs
    · cases hs
    · rename_i t hk
      obtain ⟨rfl, rfl⟩ := Prod.mk.inj (Option.some.inj hs)
      obtain rfl : k = 0 := by
        by_contra hne
        rw [hi.hosts k hne] at hk
        cases hk
      obtain ⟨ht, hg, -⟩ := hi.host t hk
      have h1 := h.free hN ht (by rcases hg with h' | h' <;> rw [h'] <;> rfl)
        (by rcases hg with h' | h' <;> rw [h'] <;> simp)
      have h2 := Log.silent h1 (e := .released t) trivial
      have h3 : Log N seed ((s.setGate (t % N) (.free (t + N))).setHost 0 .idle) _ :=
        h2.congr rfl rfl (fun _ => rfl) (fun _ _ => rfl) (fun _ _ h' => h') (fun _ _ h' => h')
          (h2.drainer.congr rfl (Nat.le_refl _) (fun _ => rfl) (fun _ => rfl))
      rw [List.append_assoc] at h3
      exact h3

/-- The states a schedule reaches, with the outcomes on the way, when each step is one that `ok` allows. -/
inductive Run {G : Type} [DecidableEq G] (e : Encoding G) (N : Nat) (ok : State G → List Event → Action → Prop)
    (init : State G) : State G → List Event → Prop
  | start : Run e N ok init init []
  | step {s s' : State G} {tr evs : List Event} {a : Action} (hr : Run e N ok init s tr) (ha : ok s tr a)
      (hs : Ring.step e N s a = some (s', evs)) : Run e N ok init s' (tr ++ evs)

/-- The seeding loop leaves `FREE(t)` in the slot of each of the tickets it walks, and only there. -/
theorem gate_seedGates (n t : Nat) (slots : Nat → Slot Gate) (hn : n ≤ N) (j : Nat) :
    (∃ i < n, (t + i) % N = j ∧ (seedGates (unbounded N) N n t slots j).gate = .free (t + i)) ∨
      ((∀ i < n, (t + i) % N ≠ j) ∧ seedGates (unbounded N) N n t slots j = slots j) := by
  induction n generalizing t slots with
  | zero => exact Or.inr ⟨by simp, rfl⟩
  | succ n ih =>
    rw [seedGates]
    rcases ih (t + 1) (fun j => if j = t % N then { slots j with gate := .free t } else slots j) (by omega) with
      ⟨i, hi, hj, hg⟩ | ⟨hne, heq⟩
    · exact Or.inl ⟨i + 1, by omega, by rw [← hj]; congr 1; omega, hg.trans (by congr 1; omega)⟩
    · by_cases hj : j = t % N
      · refine Or.inl ⟨0, by omega, hj.symm, ?_⟩
        refine (congrArg Slot.gate heq).trans ?_
        simp [hj]
      · refine Or.inr ⟨?_, heq.trans (by simp [hj])⟩
        intro i hi
        rcases i with _ | i
        · exact fun h => hj h.symm
        · have := hne i (by omega)
          rwa [show t + 1 + i = t + (i + 1) by omega] at this

theorem cells_seedGates {G : Type} [DecidableEq G] (e : Encoding G) (n t : Nat) (slots : Nat → Slot G) (j : Nat) :
    (seedGates e N n t slots j).cells = (slots j).cells := by
  induction n generalizing t slots with
  | zero => rfl
  | succ n ih =>
    rw [seedGates, ih]
    split <;> rfl

/-- A seeded ring: the next `N` tickets are free, and nothing has happened. -/
theorem inv_withHead (hN : 0 < N) : Inv N (withHead (unbounded N) N seed) := by
  refine ⟨Nat.le_refl _, ?_, ?_, fun _ _ => trivial, ?_, ?_, ?_, fun _ _ => rfl⟩
  · intro i hi
    show GateOk N seed seed i (seedGates (unbounded N) N N seed _ i).gate
    rcases gate_seedGates (N := N) N seed (fun _ => ⟨.free 0, List.replicate 8 0⟩) (Nat.le_refl _) i with
      ⟨k, hk, hj, hg⟩ | ⟨hne, -⟩
    · refine (congrArg (GateOk N seed seed i) hg).mpr ⟨hj, ?_, ?_, ?_⟩ <;> omega
    · -- the `N` tickets cover every residue
      exfalso
      have h1 := Nat.div_add_mod seed N
      have h2 := Nat.mod_lt seed hN
      rcases Nat.lt_or_ge i (seed % N) with hlt | hge
      · apply hne (N - seed % N + i) (by omega)
        rw [show seed + (N - seed % N + i) = i + N * (seed / N + 1) by rw [Nat.mul_succ]; omega,
          Nat.add_mul_mod_self_left, Nat.mod_eq_of_lt hi]
      · apply hne (i - seed % N) (by omega)
        rw [show seed + (i - seed % N) = i + N * (seed / N) by omega, Nat.add_mul_mod_self_left,
          Nat.mod_eq_of_lt hi]
  · intro i
    show (seedGates (unbounded N) N N seed _ i).cells.length = 8
    rw [cells_seedGates]
    simp
  · intro p t hp
    simp [withHead, Writer.holds] at hp
  · intro p q t hp
    simp [withHead, Writer.holds] at hp
  · intro t ht
    simp [withHead] at ht

theorem log_withHead (hN : 0 < N) : Log N seed (withHead (unbounded N) N seed) [] := by
  have hi : Inv N (withHead (unbounded N) N seed) := inv_withHead hN
  refine ⟨Nat.le_refl _, trivial, by simp [withHead], ?_, by simp, by simp, by simp, ?_, by simp, ?_, by simp⟩
  · intro p t hp
    simp [withHead, Writer.holds] at hp
  · intro t ht
    have hok := hi.gates _ (Nat.mod_lt t hN)
    rw [ht] at hok
    have h1 : t < seed := hok.2.2.1
    have h2 : seed ≤ t := hok.2.2.2
    omega
  · intro t h1 h2
    have : t < seed := h2
    omega

/-- Every run of the unbounded protocol keeps the invariant and the record of its outcomes. -/
theorem Run.safe (hN : 0 < N) (hr : Run (unbounded N) N (fun s _ a => Legal s a) (withHead (unbounded N) N seed) s tr) :
    Inv N s ∧ Log N seed s tr := by
  induction hr with
  | start => exact ⟨inv_withHead hN, log_withHead hN⟩
  | step _ ha hs ih => exact ⟨ih.1.step ih.2 hN ha hs, ih.2.step ih.1 hN ha hs⟩

/-! ### What the outcomes of a run promise -/

/-- Claimed, and its slot not yet given to the next lap. -/
def Live (tr : List Event) (t : Nat) : Prop := (∃ p, .claimed p t ∈ tr) ∧ .freed t ∉ tr

/-- What the outcomes of a run promise: its tickets counted from `seed`, the cursor at `cursor`. -/
structure Exact (N seed cursor : Nat) (tr : List Event) : Prop where
  /-- Tickets are handed out one after the other, each once. -/
  claimed_once : ∃ n, tr.filterMap Event.claimedTicket = List.range' seed n
  drained_in_order : (tr.filterMap Event.drainedTicket).Pairwise (· < ·)
  drained_published : ∀ t bytes, .drained t bytes ∈ tr → ∃ p payload, .claimed p t ∈ tr ∧
    .published p t payload ∈ tr ∧ bytes = payload.1
  published_drained : ∀ p t payload, .published p t payload ∈ tr → t < cursor → .drained t payload.1 ∈ tr
  fenced_not_drained : ∀ p t bytes, .fenced p t ∈ tr → .drained t bytes ∉ tr
  live_slots : ∀ t t', Live tr t → Live tr t' → t % N = t' % N → t = t'

theorem Log.claimed_lt (h : Log N seed s tr) {p t : Nat} (hp : .claimed p t ∈ tr) : seed ≤ t ∧ t < s.head := by
  have hm : t ∈ tr.filterMap Event.claimedTicket := List.mem_filterMap.mpr ⟨_, hp, rfl⟩
  rw [h.claims, List.mem_range'_1] at hm
  omega

theorem Log.ticket_of_live (h : Log N seed s tr) {t : Nat} (hl : Live tr t) : (s.gate (t % N)).ticket = t := by
  obtain ⟨⟨p, hp⟩, hf⟩ := hl
  obtain ⟨h1, h2⟩ := h.claimed_lt hp
  exact h.live t h1 h2 hf

theorem Log.exact (h : Log N seed s tr) (hi : Inv N s) (hN : 0 < N) : Exact N seed s.cursor tr := by
  refine ⟨⟨_, h.claims⟩, h.order, ?_, ?_, ?_, ?_⟩
  · intro t bytes ht
    obtain ⟨-, ⟨p, payload, hp⟩, heq⟩ := h.drained t bytes ht
    exact ⟨p, payload, (h.published p t payload hp).2.1, hp, heq p payload hp⟩
  · intro p t payload hp ht
    rcases (h.published p t payload hp).2.2 with ⟨-, h1⟩ | ⟨h1, -⟩ | h1
    · exact h1
    · have hok := hi.gates _ (Nat.mod_lt t hN)
      rw [h1] at hok
      exact absurd hok.2.2.2 (Nat.not_le.mpr ht)
    · have hd := h.drainer
      rw [h1] at hd
      exact absurd hd.1 (Nat.ne_of_lt ht)
  · intro p t bytes hf hd
    obtain ⟨-, ⟨q, payload, hq⟩, -⟩ := h.drained t bytes hd
    exact (h.fenced p t hf).2 q payload hq
  · intro t t' ht ht' hslot
    rw [← h.ticket_of_live ht, ← h.ticket_of_live ht', hslot]

/-! ### What the drainer alone does -/

section Parties

variable {G : Type} [DecidableEq G] {e : Encoding G} {x x' : State G}

/-- The other parties leave the drainer's call and the cursor alone. -/
theorem step_others {a : Action} (ha : a.ofDrainer = false) (hs : step e N x a = some (x', evs)) :
    x'.drainer = x.drainer ∧ x'.cursor = x.cursor ∧ ∀ ev ∈ evs, ev.ofDrainer = false := by
  cases a with
  | claim p =>
    simp only [Ring.step] at hs
    split at hs <;> cases hs
    exact ⟨rfl, rfl, by simp⟩
  | publish p payload =>
    simp only [Ring.step] at hs
    split at hs
    · split at hs <;> cases hs
      exact ⟨rfl, rfl, by simp⟩
    · cases hs
  | writer p =>
    simp only [Ring.step, Ring.stepWriter] at hs
    split at hs
    · cases hs
    · cases hw : x.writers p with
      | idle => simp [hw] at hs
      | claimed t => simp [hw] at hs
      | headLoaded t => simp only [hw] at hs; split at hs <;> cases hs <;> exact ⟨rfl, rfl, by simp [Event.ofDrainer]⟩
      | gateMatched t => simp only [hw] at hs; split at hs <;> cases hs <;> exact ⟨rfl, rfl, by simp [Event.ofDrainer]⟩
      | storing t payload i =>
        simp only [hw] at hs
        split at hs
        · cases hs
          exact ⟨rfl, rfl, by simp⟩
        · split at hs <;> cases hs <;> exact ⟨rfl, rfl, by simp [Event.ofDrainer]⟩
      | reloading t payload =>
        simp only [hw] at hs
        split at hs
        · cases hs
          exact ⟨rfl, rfl, by simp⟩
        · split at hs <;> cases hs <;> exact ⟨rfl, rfl, by simp [Event.ofDrainer]⟩
      | selfReleasing t payload =>
        simp only [hw] at hs
        split at hs <;> cases hs <;> exact ⟨rfl, rfl, by simp [Event.ofDrainer]⟩
  | stop p =>
    cases hs
    exact ⟨rfl, rfl, by simp⟩
  | poll => cases ha
  | fence => cases ha
  | drainer => cases ha
  | forceRelease k ticket =>
    simp only [Ring.step, Ring.beginRelease] at hs
    split at hs
    · split at hs
      · cases hs
        exact ⟨rfl, rfl, by simp⟩
      · split at hs <;> cases hs <;> exact ⟨rfl, rfl, by simp [Event.ofDrainer]⟩
    · cases hs
  | host k =>
    simp only [Ring.step] at hs
    split at hs <;> cases hs
    exact ⟨rfl, rfl, by simp [Event.ofDrainer]⟩

/-- A poll goes on, or answers in one of three ways. -/
theorem stepDrainer_polls (hd : x.drainer.polls = true) (hs : stepDrainer e N x = some (x', evs)) :
    (x'.drainer.polls = true ∧ ∀ ev ∈ evs, ev.ofDrainer = false) ∨
      (x'.drainer = .idle ∧ ((∃ t bytes, evs = [.drained t bytes]) ∨ (∃ t, evs = [.skipped t]) ∨
        ∃ t, evs = [.awaiting t])) := by
  unfold Ring.stepDrainer at hs
  cases hx : x.drainer with
  | polling c =>
    simp only [hx] at hs
    split at hs
    · cases hs
      exact Or.inl ⟨rfl, by simp⟩
    · split at hs <;> cases hs
      · exact Or.inl ⟨rfl, by simp⟩
      · exact Or.inr ⟨rfl, by simp⟩
  | reading c words =>
    simp only [hx] at hs
    cases hs
    refine Or.inl ⟨?_, by simp⟩
    dsimp only
    split <;> rfl
  | releasing c words =>
    simp only [hx] at hs
    cases hs
    exact Or.inl ⟨rfl, by simp [Event.ofDrainer]⟩
  | advancing c words =>
    simp only [hx] at hs
    cases hs
    exact Or.inr ⟨rfl, by simp⟩
  | skipping c =>
    simp only [hx] at hs
    cases hs
    exact Or.inr ⟨rfl, by simp⟩
  | _ =>
    rw [hx] at hd
    cases hd

/-- A fence goes on, or answers in one of two ways. -/
theorem stepDrainer_fences (hd : x.drainer.fences = true) (hs : stepDrainer e N x = some (x', evs)) :
    (x'.drainer.fences = true ∧ evs = []) ∨
      (x'.drainer = .idle ∧ ((∃ t, evs = [.fencedCursor t]) ∨ ∃ t, evs = [.notFenced t])) := by
  unfold Ring.stepDrainer at hs
  cases hx : x.drainer with
  | fencing c =>
    simp only [hx] at hs
    split at hs <;> cases hs
    · exact Or.inr ⟨rfl, by simp⟩
    · exact Or.inl ⟨rfl, rfl⟩
  | fenceCas c =>
    simp only [hx] at hs
    split at hs <;> cases hs
    · exact Or.inl ⟨rfl, rfl⟩
    · exact Or.inr ⟨rfl, by simp⟩
  | fenceAdvancing c =>
    simp only [hx] at hs
    cases hs
    exact Or.inr ⟨rfl, by simp⟩
  | _ =>
    rw [hx] at hd
    cases hd

end Parties

/-! ### The cursor passes every ticket once -/

/-- The ticket that an outcome takes the cursor past. -/
def Event.passedTicket : Event → Option Nat
  | .drained t _ | .skipped t | .fencedCursor t => some t
  | _ => none

theorem filterMap_passed_others (h : ∀ ev ∈ evs, ev.ofDrainer = false) : evs.filterMap Event.passedTicket = [] := by
  rw [List.filterMap_eq_nil_iff]
  intro ev hev
  have := h ev hev
  cases ev <;> first | rfl | cases this

theorem step_passed (hl : Log N seed s tr) {a : Action} (hs : step (unbounded N) N s a = some (s', evs)) :
    evs.filterMap Event.passedTicket = List.range' s.cursor (s'.cursor - s.cursor) ∧ s.cursor ≤ s'.cursor := by
  by_cases ha : a.ofDrainer = false
  · obtain ⟨-, hc, hev⟩ := step_others ha hs
    rw [filterMap_passed_others hev, hc]
    simp
  · cases a with
    | poll =>
      simp only [Ring.step] at hs
      split at hs <;> cases hs
      simp
    | fence =>
      simp only [Ring.step] at hs
      split at hs <;> cases hs
      simp
    | drainer =>
      have hd := hl.drainer
      simp only [Ring.step, Ring.stepDrainer] at hs
      cases hx : s.drainer with
      | polling c =>
        simp only [hx] at hs
        split at hs
        · cases hs
          simp
        · split at hs <;> cases hs <;> simp [Event.passedTicket]
      | fencing c => simp only [hx] at hs; split at hs <;> cases hs <;> simp [Event.passedTicket]
      | fenceCas c => simp only [hx] at hs; split at hs <;> cases hs <;> simp [Event.passedTicket]
      | idle => simp [hx] at hs
      | reading c words =>
        simp only [hx] at hs
        cases hs
        simp
      | releasing c words =>
        simp only [hx] at hs
        cases hs
        simp [Event.passedTicket]
      | advancing c words =>
        simp only [hx] at hs
        cases hs
        rw [hx] at hd
        obtain rfl : c = s.cursor := hd.1
        simp [Event.passedTicket, unbounded]
      | skipping c =>
        simp only [hx] at hs
        cases hs
        rw [hx] at hd
        obtain rfl : c = s.cursor := hd.1
        simp [Event.passedTicket, unbounded]
      | fenceAdvancing c =>
        simp only [hx] at hs
        cases hs
        rw [hx] at hd
        obtain rfl : c = s.cursor := hd.1
        simp [Event.passedTicket, unbounded]
    | _ => exact absurd rfl ha

/-- The tickets from `a` to `b` and on to `c`. -/
theorem tickets_append {a b c : Nat} (hab : a ≤ b) (hbc : b ≤ c) :
    List.range' a (b - a) ++ List.range' b (c - b) = List.range' a (c - a) := by
  obtain ⟨m, rfl⟩ := Nat.exists_eq_add_of_le hab
  obtain ⟨n, rfl⟩ := Nat.exists_eq_add_of_le hbc
  rw [Nat.add_sub_cancel_left, Nat.add_sub_cancel_left, List.range'_append_1, Nat.add_assoc, Nat.add_sub_cancel_left]

/-- Every ticket below the cursor was drained, skipped or fenced at the cursor, one after the other. -/
theorem Run.passed (hN : 0 < N)
    (hr : Run (unbounded N) N (fun s _ a => Legal s a) (withHead (unbounded N) N seed) s tr) :
    tr.filterMap Event.passedTicket = List.range' seed (s.cursor - seed) := by
  induction hr with
  | start =>
    show [] = List.range' seed (seed - seed)
    simp
  | step hr ha hs ih =>
    obtain ⟨hi, hl⟩ := Run.safe hN hr
    obtain ⟨h1, h2⟩ := step_passed hl hs
    rw [List.filterMap_append, ih, h1, tickets_append hl.start h2]

/-! ### Freed tickets are not awaited -/

/-- Only a poll of an unpublished cursor ticket that the slot has not left behind answers `AwaitingPublish`. -/
theorem step_awaiting {a : Action} (hs : step (unbounded N) N s a = some (s', evs)) {t : Nat}
    (ht : .awaiting t ∈ evs) :
    evs = [.awaiting t] ∧ s.drainer = .polling t ∧ s.gate (t % N) ≠ .published t ∧
      (s.gate (t % N)).isPast t = false := by
  by_cases ha : a.ofDrainer = false
  · exact absurd ((step_others ha hs).2.2 _ ht) (by simp [Event.ofDrainer])
  · cases a with
    | drainer =>
      simp only [Ring.step, Ring.stepDrainer] at hs
      cases hd : s.drainer with
      | polling c =>
        simp only [hd] at hs
        split at hs
        · obtain ⟨-, rfl⟩ := Prod.mk.inj (Option.some.inj hs)
          simp at ht
        · rename_i hnp
          split at hs <;> obtain ⟨-, rfl⟩ := Prod.mk.inj (Option.some.inj hs)
          · simp at ht
          · rename_i hpast
            obtain rfl : t = c := by simpa using ht
            exact ⟨rfl, rfl, hnp, Bool.eq_false_of_not_eq_true hpast⟩
      | fencing c => simp only [hd] at hs; split at hs <;> cases hs <;> simp at ht
      | fenceCas c => simp only [hd] at hs; split at hs <;> cases hs <;> simp at ht
      | idle => simp [hd] at hs
      | _ => simp only [hd] at hs; cases hs; simp at ht
    | poll => simp only [Ring.step] at hs; split at hs <;> cases hs; simp at ht
    | fence => simp only [Ring.step] at hs; split at hs <;> cases hs; simp at ht
    | _ => exact absurd rfl ha

/-- The trace never awaits a ticket after its slot was given away. -/
def Awaited (tr : List Event) : Prop := tr.Pairwise fun e e' => ∀ t, e = .freed t → e' ≠ .awaiting t

theorem Awaited.step (h : Awaited tr) (hl : Log N seed s tr) (hi : Inv N s) (hN : 0 < N) {a : Action}
    (hs : Ring.step (unbounded N) N s a = some (s', evs)) : Awaited (tr ++ evs) := by
  refine List.pairwise_append.mpr ⟨h, ?_, ?_⟩
  · by_cases hex : ∃ t, .awaiting t ∈ evs
    · obtain ⟨t, ht⟩ := hex
      rw [(step_awaiting hs ht).1]
      exact List.pairwise_singleton _ _
    · refine List.pairwise_of_forall_mem_list fun e _ e' he' t _ heq => hex ⟨t, heq ▸ he'⟩
  · rintro e he e' he' t rfl rfl
    obtain ⟨-, hd, hnp, hpast⟩ := step_awaiting hs he'
    have hdo := hl.drainer
    rw [hd] at hdo
    obtain rfl : t = s.cursor := hdo
    have hlt := (hl.freed _ he).2
    have hok := hi.gates _ (Nat.mod_lt s.cursor hN)
    cases hg : s.gate (s.cursor % N) with
    | free u =>
      rw [hg] at hpast hlt
      simp only [Gate.isPast, decide_eq_false_iff_not] at hpast
      exact hpast hlt
    | published u =>
      rw [hg] at hpast hlt
      simp only [Gate.isPast, decide_eq_false_iff_not] at hpast
      exact hpast hlt
    | fenced u =>
      rw [hg] at hlt hok
      exact absurd hok.2.2.2 (Nat.not_le.mpr hlt)

theorem Run.awaited (hN : 0 < N)
    (hr : Run (unbounded N) N (fun s _ a => Legal s a) (withHead (unbounded N) N seed) s tr) : Awaited tr := by
  induction hr with
  | start => exact List.Pairwise.nil
  | step hr ha hs ih =>
    obtain ⟨hi, hl⟩ := Run.safe hN hr
    exact ih.step hl hi hN hs

theorem Log.head_le (h : Log N seed s tr) (h' : Log N seed s' (tr ++ evs)) (hi : Inv N s) (hi' : Inv N s') :
    s.head ≤ s'.head := by
  have hc := congrArg List.length h'.claims
  rw [List.filterMap_append, List.length_append, h.claims, List.length_range', List.length_range'] at hc
  have := h.seed_le_head hi
  have := h'.seed_le_head hi'
  omega

theorem Run.awaiting_le (hN : 0 < N)
    (hr : Run (unbounded N) N (fun s _ a => Legal s a) (withHead (unbounded N) N seed) s tr) {t : Nat}
    (ht : .awaiting t ∈ tr) : t ≤ s.head := by
  induction hr with
  | start => cases ht
  | step hr ha hs ih =>
    obtain ⟨hi, hl⟩ := Run.safe hN hr
    have hle := hl.head_le (hl.step hi hN ha hs) hi (hi.step hl hN ha hs)
    rcases List.mem_append.mp ht with ht | ht
    · exact (ih ht).trans hle
    · have hd := hl.drainer
      rw [(step_awaiting hs ht).2.1] at hd
      rw [show t = _ from hd]
      exact hi.cursor_le.trans hle

end Horton.Ring
