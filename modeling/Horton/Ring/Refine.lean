import Horton.Ring.Simulation

/-!
# The ring refines the unbounded ticket queue

Whole runs of the ring against whole runs of the protocol over tickets that never wrap.  They agree in every outcome as
long as no poll meets a gate `2 ^ 30` tickets ahead of the cursor; there the code's skip test takes a dead ticket for a
live one and the cursor waits for a publish that never comes.
-/

namespace Horton.Ring

open Bytes

/-! ### Whole runs -/

section Runs

variable {N head : Nat} {c : State Nat} {s : State Gate} {tr tr' : List Event}

/-- Claimed tickets are those of the unbounded run, if the two traces agree on what `keep` lets through. -/
theorem claimed_of_kept {keep : Event → Bool} (hk : ∀ p t, keep (.claimed p t) = true) (hl : Log N head s tr')
    (htr : tr.filter keep = (tr'.filter keep).map Event.wrap) {p t : Nat} (hmem : .claimed p t ∈ tr) :
    ∃ u, t = u % 2 ^ 31 ∧ u < s.head := by
  have h1 : .claimed p t ∈ tr.filter keep := List.mem_filter.mpr ⟨hmem, hk p t⟩
  rw [htr] at h1
  obtain ⟨e, he, hw⟩ := List.mem_map.mp h1
  cases e with
  | claimed q u =>
    simp only [Event.wrap, Event.claimed.injEq] at hw
    exact ⟨u, hw.2.symm, (hl.claimed_lt (List.mem_filter.mp he).1).2⟩
  | _ => simp [Event.wrap] at hw

/-- Every run of the ring that stays in step is a run of the unbounded protocol, ticket for ticket. -/
theorem Run.simulated (hN : SlotCount N)
    (hr : Run (u32 N) N (InStep N) (withHead (u32 N) N (head % 2 ^ 31)) c tr) :
    ∃ s tr', Legally N (withHead (unbounded N) N head) s tr' ∧ Rel N c s ∧
      outcomes tr = (outcomes tr').map Event.wrap ∧ s.head ≤ s.cursor + 2 ^ 30 + 1 := by
  induction hr with
  | start => exact ⟨_, [], Run.start, rel_withHead hN head, rfl, by simp only [withHead]; omega⟩
  | step _ ha hs ih =>
    obtain ⟨s, tr', hr', hrel, htr, hle⟩ := ih
    obtain ⟨hi, hl⟩ := Run.safe hN.pos hr'
    have hw := hrel.cursor_within hi ha.1.1 hle
    have hclaimed := fun p t => claimed_of_kept (p := p) (t := t) (fun _ _ => rfl) hl htr
    rcases hrel.step hi hN hl hclaimed hle ha.1 hs with ⟨s', evs', hpath, hrel', hev, h1, h2⟩ | ⟨hfar, -⟩
    · refine ⟨s', tr' ++ evs', hr'.trans hpath, hrel', ?_, by omega⟩
      rw [outcomes_append, outcomes_append, List.map_append, htr, hev]
    · exact absurd ha.2 hfar.1

/-- The outcomes that took a ticket or a slot: neither refused claims nor polls without an answer. -/
def taken (tr : List Event) : List Event :=
  tr.filter fun e => match e with | .refused _ | .awaiting _ => false | _ => true

@[simp] theorem taken_append (tr tr' : List Event) : taken (tr ++ tr') = taken tr ++ taken tr' := List.filter_append ..

theorem taken_outcomes (tr : List Event) : taken (outcomes tr) = taken tr := by
  unfold taken outcomes
  rw [List.filter_filter]
  congr
  funext e
  cases e <;> rfl

theorem taken_map_wrap (tr : List Event) : taken (tr.map Event.wrap) = (taken tr).map Event.wrap := by
  induction tr with
  | nil => rfl
  | cons e tr ih =>
    have hcons : ∀ e tr, taken (e :: tr) = taken [e] ++ taken tr := fun e tr => taken_append [e] tr
    rw [List.map_cons, hcons, hcons e, List.map_append, ih]
    cases e <;> rfl

/-- Every run of the ring that its users may take is one of the unbounded protocol, polls without an answer apart. -/
theorem Run.followed (hN : SlotCount N)
    (hr : Run (u32 N) N (Assumed N) (withHead (u32 N) N (head % 2 ^ 31)) c tr) :
    ∃ s tr', Legally N (withHead (unbounded N) N head) s tr' ∧ Rel N c s ∧
      taken tr = (taken tr').map Event.wrap ∧ s.head ≤ s.cursor + 2 ^ 30 + 1 := by
  induction hr with
  | start => exact ⟨_, [], Run.start, rel_withHead hN head, rfl, by simp only [withHead]; omega⟩
  | step _ ha hs ih =>
    obtain ⟨s, tr', hr', hrel, htr, hle⟩ := ih
    obtain ⟨hi, hl⟩ := Run.safe hN.pos hr'
    have hw := hrel.cursor_within hi ha.1 hle
    have hclaimed := fun p t => claimed_of_kept (p := p) (t := t) (fun _ _ => rfl) hl htr
    rcases hrel.step hi hN hl hclaimed hle ha hs with ⟨s', evs', hpath, hrel', hev, h1, h2⟩ | ⟨⟨-, rfl, -⟩, hrel'⟩
    · refine ⟨s', tr' ++ evs', hr'.trans hpath, hrel', ?_, by omega⟩
      have hev' := congrArg taken hev
      rw [taken_outcomes, taken_map_wrap, taken_outcomes] at hev'
      rw [taken_append, taken_append, List.map_append, htr, hev']
    · refine ⟨s, tr', hr', hrel', ?_, hle⟩
      rw [taken_append, htr]
      exact List.append_nil _

end Runs

/-! ### A gate too far ahead -/

section FarGate

variable {N : Nat} {c : State Nat} {tr : List Event}

/-- `n` writers that claim the tickets `h, …, h + n - 1` one after the other, each in one go. -/
private theorem claims_in_a_row {init : State Nat} (hr : Run (u32 N) N (Assumed N) init c tr) {h : Nat}
    (hh : c.head = h) (hc : c.cursor = 0) (n : Nat) (hle : h + n ≤ 2 ^ 30)
    (hfree : ∀ i, h ≤ i → i < h + n → c.gate (i % N) = i ∧ c.writers i = .idle ∧ c.stopped i = false) :
    ∃ c', Run (u32 N) N (Assumed N) init c' (tr ++ (List.range' h n).map fun i => .claimed i i) ∧ c'.head = h + n ∧
      c'.cursor = 0 ∧ c'.slots = c.slots ∧ c'.stopped = c.stopped ∧ c'.drainer = c.drainer ∧ c'.hosts = c.hosts ∧
      ∀ q, c'.writers q = if h ≤ q ∧ q < h + n then .claimed q else c.writers q := by
  induction n with
  | zero =>
    refine ⟨c, by simpa using hr, hh, hc, rfl, rfl, rfl, rfl, fun q => ?_⟩
    rw [if_neg (by omega)]
  | succ n ih =>
    obtain ⟨c', hr', h1, h2, h3, h4, h5, h6, h7⟩ := ih (by omega) fun i hi hlt => hfree i hi (by omega)
    obtain ⟨hg, hidle, hst⟩ := hfree (h + n) (by omega) (by omega)
    have hw : c'.writers (h + n) = .idle := by rw [h7, if_neg (by omega), hidle]
    have hs : c'.stopped (h + n) = false := by rw [h4, hst]
    have hg' : c'.gate ((h + n) % N) = h + n := by rw [State.gate, h3]; exact hg
    have hwithin : ∀ c'' : State Nat, c''.head = h + n → c''.cursor = 0 → Within c'' := by
      intro c'' e1 e2
      unfold Within
      rw [e1, e2]
      omega
    have e1 : step (u32 N) N c' (.claim (h + n)) = some (c'.setWriter (h + n) (.headLoaded (h + n)), []) := by
      simp [step, hw, hs, h1]
    have e2 : step (u32 N) N (c'.setWriter (h + n) (.headLoaded (h + n))) (.writer (h + n)) =
        some (c'.setWriter (h + n) (.gateMatched (h + n)), []) := by
      rw [stepWriter_eq _ _ (by simpa using hs)]
      simp [stepWriter, u32, hg', State.setWriter_setWriter]
    have e3 : step (u32 N) N (c'.setWriter (h + n) (.gateMatched (h + n))) (.writer (h + n)) =
        some ({ c'.setWriter (h + n) (.claimed (h + n)) with head := nextTicket (h + n) },
          [.claimed (h + n) (h + n)]) := by
      rw [stepWriter_eq _ _ (by simpa using hs)]
      simp [stepWriter, u32, h1, State.setWriter_setWriter]
    have r1 := hr'.step (a := .claim (h + n)) ⟨hwithin _ h1 h2, trivial, trivial⟩ e1
    have r2 := r1.step (a := .writer (h + n)) ⟨hwithin _ h1 h2, by simp [ClaimsFree], trivial⟩ e2
    have r3 := r2.step (a := .writer (h + n)) ⟨hwithin _ h1 h2, by simp [ClaimsFree, hg'], trivial⟩ e3
    refine ⟨{ c'.setWriter (h + n) (.claimed (h + n)) with head := nextTicket (h + n) }, ?_, ?_, h2, h3, h4, h5, h6,
      fun q => ?_⟩
    · rw [List.range'_concat, List.map_append, ← List.append_assoc]
      simpa only [List.append_nil, Nat.one_mul, List.map_cons, List.map_nil] using r3
    · show nextTicket (h + n) = h + n + 1
      have := nextTicket_mod (h + n)
      rw [Nat.mod_eq_of_lt (by omega), Nat.mod_eq_of_lt (by omega)] at this
      exact this
    · show (c'.setWriter (h + n) (.claimed (h + n))).writers q = _
      by_cases hq : q = h + n
      · simp [hq]
      · rw [State.setWriter_writers, if_neg hq, h7]
        by_cases hb : h ≤ q ∧ q < h + n
        · rw [if_pos hb, if_pos (by omega)]
        · rw [if_neg hb, if_neg (by omega)]

/-- The host releases the ticket of a writer that stops: the slot is free for the next lap. -/
private theorem host_releases {init : State Nat} (hr : Run (u32 N) N (Assumed N) init c tr) {t : Nat}
    (hc : c.cursor = 0) (hh : c.head ≤ 2 ^ 30) (hd : c.drainer = .idle) (hk : ∀ k, c.hosts k = .idle) (ht : t < 2 ^ 31)
    (hg : c.gate (t % N) = t) (hcl : .claimed t t ∈ tr) (hown : ∀ q, (c.writers q).holds = some t → q = t)
    (hrec : (c.head + 2 ^ 31 - 1 - t) % 2 ^ 31 < N) :
    ∃ c', Run (u32 N) N (Assumed N) init c' (tr ++ [.freed t, .released t]) ∧ c'.head = c.head ∧ c'.cursor = 0 ∧
      c'.drainer = .idle ∧ (∀ k, c'.hosts k = .idle) ∧ c'.writers = c.writers ∧
      (∀ q, q ≠ t → c'.stopped q = c.stopped q) ∧
      ∀ i, c'.gate i = if i = t % N then releaseGate N t else c.gate i := by
  have hwithin : ∀ c'' : State Nat, c''.head = c.head → c''.cursor = 0 → Within c'' := by
    intro c'' e1 e2
    unfold Within
    rw [e1, e2]
    omega
  have hmask : t &&& TICKET_MASK = t := by rw [mask_eq, Nat.mod_eq_of_lt ht]
  have r1 := hr.step (a := .stop t) ⟨hwithin _ rfl hc, trivial, trivial⟩ rfl
  rw [List.append_nil] at r1
  have e2 : ∀ x : State Nat, x.hosts 0 = .idle → x.gate (t % N) = t →
      step (u32 N) N x (.forceRelease 0 t) = some (x.setHost 0 (.releasing t), []) := by
    intro x h1 h2
    simp [step, h1, beginRelease, u32, hmask, h2]
  have r2 := r1.step (a := .forceRelease 0 t) ⟨hwithin _ rfl hc, trivial, rfl, ⟨t, by rwa [hmask]⟩, by
    intro q hq
    rw [hmask] at hq
    simp [hown q hq], by
    intro _
    rw [hmask]
    exact hrec⟩ (e2 _ (hk 0) hg)
  rw [List.append_nil] at r2
  have r3 := r2.step (a := .host 0) ⟨hwithin _ rfl hc, trivial, trivial⟩ rfl
  refine ⟨_, r3, rfl, hc, hd, fun k => ?_, rfl, fun q hq => ?_, fun i => ?_⟩
  · by_cases hk0 : k = 0
    · simp [hk0]
    · simpa [hk0] using hk k
  · simp [hq]
  · rw [State.gate_setHost, State.gate_setGate]
    rfl

/-- A freshly seeded ring: slot `j` is free for ticket `j`. -/
private theorem gate_new (hN : SlotCount N) {j : Nat} (hj : j < N) : (newSeeded (u32 N) N 0).gate j = j := by
  have hN' := Nat.le_of_dvd (by decide) hN.dvd
  have hg : (newSeeded (u32 N) N 0).gate j = _ := (rel_withHead hN 0).gates j
  have hfree : (withHead (unbounded N) N 0).gate j = .free j := by
    rcases gate_seedGates (N := N) N 0 (fun _ => ⟨.free 0, List.replicate 8 0⟩) (Nat.le_refl _) j with
      ⟨i, hi, hij, hgi⟩ | ⟨hne, -⟩
    · rw [Nat.zero_add, Nat.mod_eq_of_lt hi] at hij
      subst hij
      rw [Nat.zero_add] at hgi
      exact hgi
    · exact absurd (by rw [Nat.zero_add, Nat.mod_eq_of_lt hj]) (hne j hj)
  rw [hg, hfree, Gate.encode, Nat.mod_eq_of_lt (by omega)]

/-- The run that leads to the far gate: ticket 0 is claimed and released by the host, the tickets `1, …, N` are claimed,
and ticket `N`, which has the same slot, is released too. -/
private theorem far_gate (hN : SlotCount N) (hle : N + 1 ≤ 2 ^ 30) :
    ∃ c, Run (u32 N) N (Assumed N) (newSeeded (u32 N) N 0) c
      ([.claimed 0 0] ++ [.freed 0, .released 0] ++ (List.range' 1 N).map (fun i => .claimed i i) ++
        [.freed N, .released N]) ∧ c.cursor = 0 ∧ c.head = N + 1 ∧ c.drainer = .idle ∧ c.gate 0 = releaseGate N N := by
  have hpos := hN.pos
  have hrel : releaseGate N 0 = N := by
    have := releaseGate_mod N 0
    rwa [Nat.zero_mod, Nat.zero_add, Nat.mod_eq_of_lt (by omega)] at this
  -- ticket 0
  obtain ⟨c₁, r1, a1, a2, a3, a4, a5, a6, a7⟩ := claims_in_a_row (N := N) Run.start (h := 0)
    (c := newSeeded (u32 N) N 0) rfl rfl 1 (by decide) (by
      intro i _ hi
      obtain rfl : i = 0 := by omega
      exact ⟨by rw [Nat.zero_mod]; exact gate_new hN hpos, rfl, rfl⟩)
  have hg1 : ∀ j < N, c₁.gate j = j := fun j hj => by rw [State.gate, a3]; exact gate_new hN hj
  obtain ⟨c₂, r2, b1, b2, b3, b4, b5, b6, b7⟩ := host_releases r1 (t := 0) a2 (by rw [a1]; decide) (by rw [a5]; rfl)
    (fun k => by rw [a6]; rfl) (by decide) (by rw [Nat.zero_mod]; exact hg1 0 hpos) (by simp) (by
      intro q hq
      rw [a7] at hq
      split at hq
      · omega
      · simp [newSeeded, withHead, Writer.holds] at hq) (by rw [a1]; omega)
  -- the tickets `1, …, N`: ticket `N` finds slot 0 free again
  have hg2 : ∀ i, 1 ≤ i → i < 1 + N → c₂.gate (i % N) = i := by
    intro i h1 h2
    rw [b7]
    by_cases hi : i = N
    · simp [hi, hrel]
    · have hlt : i < N := by omega
      rw [Nat.mod_eq_of_lt hlt, Nat.zero_mod, if_neg (by omega), hg1 i hlt]
  obtain ⟨c₃, r3, d1, d2, d3, d4, d5, d6, d7⟩ := claims_in_a_row r2 (h := 1) (by rw [b1, a1]) b2 N (by omega) (by
    intro i h1 h2
    refine ⟨hg2 i h1 h2, ?_, ?_⟩
    · rw [b5, a7, if_neg (by omega)]
      rfl
    · rw [b6 i (by omega), a4]
      rfl)
  obtain ⟨c₄, r4, f1, f2, f3, -, -, -, f7⟩ := host_releases r3 (t := N) d2 (by rw [d1]; omega) (by rw [d5, b3])
    (fun k => by rw [d6, b4]) (by omega) (by rw [State.gate, d3]; exact hg2 N (by omega) (by omega))
    (by simp; omega) (by
      intro q hq
      rw [d7] at hq
      split at hq
      · simpa [Writer.holds] using hq
      · rw [b5, a7] at hq
        split at hq
        · simp only [Writer.holds, Option.some.injEq] at hq
          omega
        · simp [newSeeded, withHead, Writer.holds] at hq) (by rw [d1]; omega)
  refine ⟨c₄, by simpa using r4, f2, by rw [f1, d1, Nat.add_comm], f3, ?_⟩
  rw [f7, Nat.mod_self, if_pos rfl]

private theorem claims_of_row (h n : Nat) :
    (outcomes ((List.range' h n).map fun i => .claimed i i)).filterMap Event.claimedTicket = List.range' h n := by
  induction n generalizing h with
  | zero => rfl
  | succ n ih =>
    rw [List.range'_succ, List.map_cons, ← List.singleton_append, outcomes_append, List.filterMap_append, ih]
    rfl

/-- Wrapping keeps the number of claims. -/
private theorem length_claims_outcomes (tr : List Event) :
    (((outcomes tr).map Event.wrap).filterMap Event.claimedTicket).length =
      (tr.filterMap Event.claimedTicket).length := by
  induction tr with
  | nil => rfl
  | cons e tr ih =>
    rw [← List.singleton_append, outcomes_append, List.map_append, List.filterMap_append, List.filterMap_append,
      List.length_append, List.length_append, ih]
    cases e <;> rfl

/-- The unbounded protocol does not await a ticket whose number was freed before, while few tickets are claimed. -/
private theorem not_awaiting_freed (hN : 0 < N) {s : State Gate} {tr' pre : List Event} {t n : Nat}
    (hr : Legally N (withHead (unbounded N) N 0) s tr') (hfreed : .freed t ∈ pre)
    (hn : (pre.filterMap Event.claimedTicket).length = n) (hlt : n < 2 ^ 31) :
    (outcomes tr').map Event.wrap ≠ pre ++ [.awaiting t] := by
  intro heq
  obtain ⟨hi, hl⟩ := Run.safe hN hr
  have hhead : s.head = n := by
    have h1 := length_claims_outcomes tr'
    rw [heq, List.filterMap_append, List.length_append, hn, hl.claims, List.length_range'] at h1
    simpa [List.filterMap_cons, Event.claimedTicket] using h1.symm
  obtain ⟨l₁, l₂, hsplit, h1, h2⟩ := List.map_eq_append_iff.mp heq
  have hord : Awaited (outcomes tr') := (hr.awaited hN).sublist List.filter_sublist
  rw [hsplit] at hord
  obtain ⟨e, rfl⟩ := List.length_eq_one_iff.mp ((List.length_map _).symm.trans (congrArg List.length h2))
  have hmem : ∀ x ∈ l₁ ++ [e], x ∈ tr' := fun x hx => (List.mem_filter.mp (hsplit ▸ hx : x ∈ outcomes tr')).1
  rw [← h1] at hfreed
  obtain ⟨e', he', hw'⟩ := List.mem_map.mp hfreed
  have hw : e.wrap = .awaiting t := by simpa using h2
  cases e with
  | awaiting b =>
    cases e' with
    | freed a =>
      simp only [Event.wrap, Event.awaiting.injEq, Event.freed.injEq] at hw hw'
      have ha : a < s.head := (hl.freed a (hmem _ (by simp [he']))).1
      have hb : b ≤ s.head := hr.awaiting_le hN (hmem _ (by simp))
      have hab : a = b := by omega
      exact (List.pairwise_append.mp hord).2.2 _ he' (.awaiting b) (by simp) a rfl (by rw [hab])
    | _ => simp [Event.wrap] at hw'
  | _ => simp [Event.wrap] at hw

private theorem awaits_released (hN : SlotCount N) (h2N : 2 * N = 2 ^ 30) :
    ∃ c tr, Run (u32 N) N (Assumed N) (newSeeded (u32 N) N 0) c tr ∧
      ∀ s tr', Legally N (withHead (unbounded N) N 0) s tr' → outcomes tr ≠ (outcomes tr').map Event.wrap := by
  have h2 := hN.two_le
  obtain ⟨c, r, hcur, hhead, hdr, hgate⟩ := far_gate hN (by omega)
  have hwithin : ∀ c' : State Nat, c'.head = c.head → c'.cursor = c.cursor → Within c' := by
    intro c' e1 e2
    unfold Within
    rw [e1, e2, hcur, hhead]
    omega
  have hfar : releaseGate N N = 2 ^ 30 := by
    have := releaseGate_mod N N
    rwa [Nat.mod_eq_of_lt (by omega), ← Nat.two_mul, h2N] at this
  have e1 : step (u32 N) N c .poll = some ({ c with drainer := .polling 0 }, []) := by
    simp [step, hdr, hcur]
  have e2 : step (u32 N) N { c with drainer := .polling 0 } .drainer =
      some ({ c with drainer := .idle }, [.awaiting 0]) := by
    have hg : State.gate { c with drainer := .polling 0 } 0 = 2 ^ 30 := hgate.trans hfar
    simp only [step, stepDrainer, Nat.zero_mod, hg]
    rw [if_neg (by show 2 ^ 30 ≠ publishedGate 0; decide), if_neg (by
      show ¬ gateIsPast N (2 ^ 30) 0 = true
      rw [show gateIsPast N (2 ^ 30) 0 = false from gateIsPast_far hN 0]
      decide)]
  have r1 := (r.step (a := .poll) ⟨hwithin _ rfl rfl, trivial, trivial⟩ e1).step (a := .drainer)
    ⟨hwithin _ rfl rfl, trivial, trivial⟩ e2
  rw [List.append_nil] at r1
  refine ⟨_, _, r1, fun s tr' hr htr => ?_⟩
  rw [outcomes_append] at htr
  refine not_awaiting_freed hN.pos hr (n := N + 1) ?_ ?_ (by omega) htr.symm
  · simp [outcomes]
  · simp only [outcomes_append, List.filterMap_append, List.length_append, claims_of_row, List.length_range']
    show 1 + 0 + N + 0 = N + 1
    omega

end FarGate

/-! ### The refinement -/

/-- The ring behaves as the unbounded ticket queue, in every run whose steps its users may take and in which no poll
meets a gate `2 ^ 30` tickets ahead: the same outcomes, ticket for ticket modulo `2 ^ 31`, of a run in which each ticket
is claimed once and drained at most once, in order and with the payload its claimer published, no published ticket is
skipped and no fenced one drained, and live tickets never share a slot. -/
theorem ring_refines_ticket_queue {k seed : Nat} (hk : 1 ≤ k) (hk' : k ≤ 29) {c : State Nat} {tr : List Event}
    (hr : Run (u32 (2 ^ k)) (2 ^ k) (InStep (2 ^ k)) (newSeeded (u32 (2 ^ k)) (2 ^ k) seed) c tr) :
    ∃ s tr', Legally (2 ^ k) (withHead (unbounded (2 ^ k)) (2 ^ k) (seed % 2 ^ 31)) s tr' ∧
      outcomes tr = (outcomes tr').map Event.wrap ∧ c.head = s.head % 2 ^ 31 ∧ c.cursor = s.cursor % 2 ^ 31 ∧
      (∀ i, c.gate i = (s.gate i).encode) ∧ Exact (2 ^ k) (seed % 2 ^ 31) s.cursor tr' := by
  have hN := slotCount_two_pow hk hk'
  rw [newSeeded, mask_eq, ← Nat.mod_mod] at hr
  obtain ⟨s, tr', hr', hrel, htr, -⟩ := hr.simulated hN
  obtain ⟨hi, hl⟩ := Run.safe hN.pos hr'
  exact ⟨s, tr', hr', htr, hrel.head, hrel.cursor, hrel.gates, hl.exact hi hN.pos⟩

/-- At the wrap: two slots, seeded with the last ticket of the space, which one writer claims and publishes. -/
theorem ring_refines_ticket_queue_wrap :
    ∃ c, Run (u32 2) 2 (InStep 2) (newSeeded (u32 2) 2 (2 ^ 31 - 1)) c [.claimed 0 (2 ^ 31 - 1)] ∧ c.head = 0 ∧
      ∃ s tr', Legally 2 (withHead (unbounded 2) 2 ((2 ^ 31 - 1) % 2 ^ 31)) s tr' ∧
        outcomes [.claimed 0 (2 ^ 31 - 1)] = (outcomes tr').map Event.wrap ∧ s.head % 2 ^ 31 = 0 ∧
        Exact 2 ((2 ^ 31 - 1) % 2 ^ 31) s.cursor tr' := by
  have h0 : Run (u32 2) 2 (InStep 2) (newSeeded (u32 2) 2 (2 ^ 31 - 1)) (newSeeded (u32 2) 2 (2 ^ 31 - 1)) [] :=
    Run.start
  have h1 := h0.step (a := .claim 0) ⟨⟨by unfold Within; decide, trivial, trivial⟩, trivial⟩ rfl
  have h2 := h1.step (a := .writer 0) ⟨⟨by unfold Within; decide, (fun t ht => by cases ht), trivial⟩, trivial⟩ rfl
  have h3 := h2.step (a := .writer 0) ⟨⟨by unfold Within; decide, (fun t _ ht => by subst ht; rfl), trivial⟩,
    trivial⟩ rfl
  obtain ⟨s, tr', hr, htr, hh, -, -, hex⟩ :=
    ring_refines_ticket_queue (k := 1) (by decide) (by decide) h3
  exact ⟨_, h3, rfl, s, tr', hr, htr, hh.symm, hex⟩

/-- Without that condition the ring leaves the queue: with `2 ^ 29` slots, after ticket 0 and ticket `2 ^ 29` were released
in turn, the poll at the cursor answers `AwaitingPublish` for ticket 0, which no run of the unbounded protocol does. -/
theorem ring_awaits_released_ticket :
    ∃ c tr, Run (u32 (2 ^ 29)) (2 ^ 29) (Assumed (2 ^ 29)) (newSeeded (u32 (2 ^ 29)) (2 ^ 29) 0) c tr ∧
      ∀ s tr', Legally (2 ^ 29) (withHead (unbounded (2 ^ 29)) (2 ^ 29) 0) s tr' →
        outcomes tr ≠ (outcomes tr').map Event.wrap :=
  awaits_released ⟨by decide, by decide⟩ (by decide)

end Horton.Ring
