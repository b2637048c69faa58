import Mathlib.Data.Nat.Bitwise
import Mathlib.Data.Nat.ModEq
import Horton.Ring.Safety

/-!
# A step of the ring, over unbounded tickets

The simulation relation between the protocol over 31-bit tickets and the same protocol over tickets that never wrap.
Each gate, the head, the cursor and every ticket a party holds is the unbounded one modulo `2 ^ 31`; within a slot two
gates less than a lap apart have different encodings, so every comparison the code makes is decided the same way in
both.
-/

namespace Horton.Ring

open Bytes

/-! ### The arithmetic of the encoding -/

private theorem and_mask (x : Nat) : x &&& TICKET_MASK = x % 2 ^ 31 := Nat.and_two_pow_sub_one_eq_mod x 31

private theorem or_fencedBit {x : Nat} (h : x < 2 ^ 31) : x ||| FENCED_BIT = x + 2 ^ 31 := by
  rw [Nat.or_comm]
  have := Nat.two_pow_add_eq_or_of_lt h 1
  simpa [FENCED_BIT, Nat.add_comm] using this.symm

private theorem and_fencedBit {x : Nat} (h : x < 2 ^ 31) : x &&& FENCED_BIT = 0 := by
  have := Nat.and_two_pow x 31
  rw [Nat.testBit_lt_two_pow h] at this
  simpa [FENCED_BIT] using this

private theorem add_and_fencedBit {x : Nat} (h : x < 2 ^ 31) : (x + 2 ^ 31) &&& FENCED_BIT ≠ 0 := by
  have := Nat.and_two_pow (x + 2 ^ 31) 31
  rw [Nat.add_comm, Nat.testBit_two_pow_add_eq, Nat.testBit_lt_two_pow h] at this
  rw [Nat.add_comm, show FENCED_BIT = 2 ^ 31 from rfl, this]
  decide

theorem mask_eq (t : Nat) : t &&& TICKET_MASK = t % 2 ^ 31 := and_mask t

theorem nextTicket_mod (t : Nat) : nextTicket (t % 2 ^ 31) = (t + 1) % 2 ^ 31 := by
  rw [nextTicket, wrappingAdd, and_mask]
  omega

theorem releaseGate_mod (N t : Nat) : releaseGate N (t % 2 ^ 31) = (t + N) % 2 ^ 31 := by
  rw [releaseGate, wrappingAdd, and_mask, Nat.mod_mod_of_dvd _ (by decide), Nat.mod_add_mod]

theorem fencedGate_mod (t : Nat) : t % 2 ^ 31 ||| FENCED_BIT = t % 2 ^ 31 + 2 ^ 31 :=
  or_fencedBit (Nat.mod_lt _ (by decide))

/-- The 32 bits that stand for a gate. -/
def Gate.encode : Gate → Nat
  | free t => t % 2 ^ 31
  | published t => (t + 1) % 2 ^ 31
  | fenced t => t % 2 ^ 31 + 2 ^ 31

/-- Less than a lap of the 31-bit tickets apart. -/
def Near (a b : Nat) : Prop := a < b + 2 ^ 31 ∧ b < a + 2 ^ 31

theorem Near.eq_of_mod_eq {a b : Nat} (h : Near a b) (hm : a % 2 ^ 31 = b % 2 ^ 31) : a = b := by
  obtain ⟨h1, h2⟩ := h
  omega

section Compare

variable {N : Nat} {g : Gate} {t : Nat}

/-- `N` divides the ticket space and is at least two, so that a slot's `FREE` and `PUBLISHED` values never meet. -/
structure SlotCount (N : Nat) : Prop where
  two_le : 2 ≤ N
  dvd : N ∣ 2 ^ 30

theorem slotCount_two_pow {k : Nat} (hk : 1 ≤ k) (hk' : k ≤ 29) : SlotCount (2 ^ k) := by
  refine ⟨?_, Nat.pow_dvd_pow 2 (by omega)⟩
  calc 2 = 2 ^ 1 := rfl
    _ ≤ 2 ^ k := Nat.pow_le_pow_right (by decide) hk

theorem SlotCount.pos (hN : SlotCount N) : 0 < N := Nat.lt_of_lt_of_le (by decide) hN.two_le

theorem SlotCount.dvd_space (hN : SlotCount N) : N ∣ 2 ^ 31 := hN.dvd.trans (by decide)

theorem SlotCount.slot_mod (hN : SlotCount N) (t : Nat) : t % 2 ^ 31 % N = t % N :=
  Nat.mod_mod_of_dvd t hN.dvd_space

theorem SlotCount.succ_ne (hN : SlotCount N) {a b : Nat} (h : a % N = b % N) : (a + 1) % 2 ^ 31 ≠ b % 2 ^ 31 := by
  intro heq
  have h1 : (a + 1) % N = b % N := by rw [← hN.slot_mod (a + 1), heq, hN.slot_mod]
  have h2 : Nat.ModEq N (a + 1) (a + 0) := h1.trans h.symm
  have h3 := (Nat.modEq_zero_iff_dvd.mp (Nat.ModEq.add_left_cancel' a h2))
  have := Nat.le_of_dvd (by decide) h3
  have := hN.two_le
  omega

theorem encode_eq_free (hN : SlotCount N) (hs : g.ticket % N = t % N) (hn : Near g.ticket t) :
    g.encode = t % 2 ^ 31 ↔ g = .free t := by
  cases g with
  | free u => exact ⟨fun h => congrArg _ (hn.eq_of_mod_eq h), fun h => by cases h; rfl⟩
  | published u => exact ⟨fun h => absurd h (hN.succ_ne hs), fun h => by cases h⟩
  | fenced u =>
    refine ⟨fun h => ?_, fun h => by cases h⟩
    simp only [Gate.encode] at h
    omega

theorem encode_eq_published (hN : SlotCount N) (hs : g.ticket % N = t % N) (hn : Near g.ticket t) :
    g.encode = (t + 1) % 2 ^ 31 ↔ g = .published t := by
  cases g with
  | free u => exact ⟨fun h => absurd h.symm (hN.succ_ne hs.symm), fun h => by cases h⟩
  | published u =>
    refine ⟨fun h => ?_, fun h => by cases h; rfl⟩
    have hn' : Near (u + 1) (t + 1) := by
      obtain ⟨h1, h2⟩ := hn
      simp only [Gate.ticket] at h1 h2
      exact ⟨by omega, by omega⟩
    have := hn'.eq_of_mod_eq h
    rw [Nat.succ.inj this]
  | fenced u =>
    refine ⟨fun h => ?_, fun h => by cases h⟩
    simp only [Gate.encode] at h
    omega

theorem encode_eq_fenced (hn : Near g.ticket t) : g.encode = t % 2 ^ 31 + 2 ^ 31 ↔ g = .fenced t := by
  cases g with
  | free u =>
    refine ⟨fun h => ?_, fun h => by cases h⟩
    simp only [Gate.encode] at h
    omega
  | published u =>
    refine ⟨fun h => ?_, fun h => by cases h⟩
    simp only [Gate.encode] at h
    omega
  | fenced u =>
    refine ⟨fun h => ?_, fun h => by cases h; rfl⟩
    exact congrArg _ (hn.eq_of_mod_eq (Nat.add_right_cancel h))

/-- The skip test at the cursor `c` reads the gate as it is, when the gate's ticket is not `2 ^ 30` tickets or more
ahead. -/
theorem gateIsPast_encode (hN : SlotCount N) {c : Nat} (hs : g.ticket % N = c % N) (hn : Near g.ticket c)
    (hahead : (∀ u, g ≠ .fenced u) → c ≤ g.ticket ∧ g.ticket < c + 2 ^ 30) :
    gateIsPast N g.encode (c % 2 ^ 31) = g.isPast c := by
  unfold gateIsPast Gate.isPast
  simp only [and_mask]
  cases g with
  | fenced u =>
    have hlt : u % 2 ^ 31 < 2 ^ 31 := Nat.mod_lt _ (by decide)
    rw [Gate.encode, if_pos (add_and_fencedBit hlt)]
    rw [show (u % 2 ^ 31 + 2 ^ 31) % 2 ^ 31 = u % 2 ^ 31 by omega]
    by_cases h : u = c
    · simp [h]
    · have hne : u % 2 ^ 31 ≠ c % 2 ^ 31 := fun h' => h (hn.eq_of_mod_eq h')
      rw [beq_eq_false_iff_ne.mpr hne]
      exact (beq_eq_false_iff_ne.mpr h).symm
  | free u =>
    obtain ⟨h1, h2⟩ := hahead (by simp)
    simp only [Gate.ticket] at hs hn h1 h2
    have hlt : u % 2 ^ 31 < 2 ^ 31 := Nat.mod_lt _ (by decide)
    rw [Gate.encode, if_neg (by rw [and_fencedBit hlt]; simp)]
    by_cases h : u = c
    · simp [h]
    · have hne : u % 2 ^ 31 ≠ c % 2 ^ 31 := fun h' => h (hn.eq_of_mod_eq h')
      rw [Nat.mod_mod, if_neg hne, hN.slot_mod, hN.slot_mod, if_pos hs]
      have hd : wrappingSub (u % 2 ^ 31) (c % 2 ^ 31) % 2 ^ 31 < 2 ^ 30 := by
        unfold wrappingSub
        omega
      simp only [hd, decide_true, Bool.and_true]
      rw [bne_iff_ne.mpr hne, decide_eq_true (by omega)]
  | published u =>
    obtain ⟨h1, h2⟩ := hahead (by simp)
    simp only [Gate.ticket] at hs hn h1 h2
    have hlt : (u + 1) % 2 ^ 31 < 2 ^ 31 := Nat.mod_lt _ (by decide)
    rw [Gate.encode, if_neg (by rw [and_fencedBit hlt]; simp)]
    have hne : (u + 1) % 2 ^ 31 ≠ c % 2 ^ 31 := hN.succ_ne hs
    have hslot : (u + 1) % N ≠ c % N := by
      intro h'
      have h2 : Nat.ModEq N (u + 1) (u + 0) := h'.trans hs.symm
      have h3 := Nat.le_of_dvd (by decide) (Nat.modEq_zero_iff_dvd.mp (Nat.ModEq.add_left_cancel' u h2))
      have := hN.two_le
      omega
    rw [Nat.mod_mod, if_neg hne, hN.slot_mod, hN.slot_mod, if_neg hslot]
    have hsub : wrappingSub ((u + 1) % 2 ^ 31) 1 % 2 ^ 31 = u % 2 ^ 31 := by
      unfold wrappingSub
      omega
    rw [hsub]
    by_cases h : u = c
    · simp [h]
    · have hne' : u % 2 ^ 31 ≠ c % 2 ^ 31 := fun h' => h (hn.eq_of_mod_eq h')
      have hd : wrappingSub (u % 2 ^ 31) (c % 2 ^ 31) % 2 ^ 31 < 2 ^ 30 := by
        unfold wrappingSub
        omega
      simp only [hd, decide_true, Bool.and_true]
      rw [bne_iff_ne.mpr hne', decide_eq_true (by omega)]

end Compare

/-! ### The simulation relation -/

def Writer.wrap : Writer → Writer
  | .idle => .idle
  | .headLoaded t => .headLoaded (t % 2 ^ 31)
  | .gateMatched t => .gateMatched (t % 2 ^ 31)
  | .claimed t => .claimed (t % 2 ^ 31)
  | .storing t payload i => .storing (t % 2 ^ 31) payload i
  | .reloading t payload => .reloading (t % 2 ^ 31) payload
  | .selfReleasing t payload => .selfReleasing (t % 2 ^ 31) payload

def Drainer.wrap : Drainer → Drainer
  | .idle => .idle
  | .polling c => .polling (c % 2 ^ 31)
  | .reading c words => .reading (c % 2 ^ 31) words
  | .releasing c words => .releasing (c % 2 ^ 31) words
  | .advancing c words => .advancing (c % 2 ^ 31) words
  | .skipping c => .skipping (c % 2 ^ 31)
  | .fencing c => .fencing (c % 2 ^ 31)
  | .fenceCas c => .fenceCas (c % 2 ^ 31)
  | .fenceAdvancing c => .fenceAdvancing (c % 2 ^ 31)

def Host.wrap : Host → Host
  | .idle => .idle
  | .releasing t => .releasing (t % 2 ^ 31)

def Event.wrap : Event → Event
  | .claimed p t => .claimed p (t % 2 ^ 31)
  | .refused p => .refused p
  | .published p t payload => .published p (t % 2 ^ 31) payload
  | .fenced p t => .fenced p (t % 2 ^ 31)
  | .drained t bytes => .drained (t % 2 ^ 31) bytes
  | .skipped t => .skipped (t % 2 ^ 31)
  | .awaiting t => .awaiting (t % 2 ^ 31)
  | .fencedCursor t => .fencedCursor (t % 2 ^ 31)
  | .notFenced t => .notFenced (t % 2 ^ 31)
  | .released t => .released (t % 2 ^ 31)
  | .alreadyPublished t => .alreadyPublished (t % 2 ^ 31)
  | .stale t => .stale (t % 2 ^ 31)
  | .freed t => .freed (t % 2 ^ 31)

/-- A writer of the ring and of the unbounded protocol at the same place, or one of the ring whose gate load has met the
same 31 bits a lap later, while the other still has the load before it. -/
def WriterRel (N : Nat) (s : State Gate) (w : Writer) (v : Writer) : Prop :=
  w = v.wrap ∨ ∃ t, w = .gateMatched (t % 2 ^ 31) ∧ v = .headLoaded t ∧ t < (s.gate (t % N)).ticket

/-- A drainer of the ring and of the unbounded protocol at the same place; the latter polls in one go, when the ring's
gate load is done. -/
def DrainerRel (s : State Gate) (d : Drainer) : Prop :=
  (d = .polling (s.cursor % 2 ^ 31) ∧ s.drainer = .idle) ∨ (d = s.drainer.wrap ∧ ∀ x, s.drainer ≠ .polling x)

theorem DrainerRel.of_idle {s : State Gate} {d : Drainer} (h : DrainerRel s d) (hd : d = .idle) : s.drainer = .idle := by
  rcases h with ⟨h', -⟩ | ⟨h', -⟩
  · rw [hd] at h'
    cases h'
  · rw [hd] at h'
    cases hs : s.drainer <;> rw [hs] at h' <;> simp [Drainer.wrap] at h'

structure Rel (N : Nat) (c : State Nat) (s : State Gate) : Prop where
  head : c.head = s.head % 2 ^ 31
  cursor : c.cursor = s.cursor % 2 ^ 31
  gates : ∀ i, c.gate i = (s.gate i).encode
  cells : ∀ i, c.cells i = s.cells i
  writers : ∀ p, WriterRel N s (c.writers p) (s.writers p)
  stopped : c.stopped = s.stopped
  drainer : DrainerRel s c.drainer
  hosts : ∀ h, c.hosts h = (s.hosts h).wrap

/-- The outcomes of a run, refused claims apart: a claim that fails consumes nothing. -/
def outcomes (tr : List Event) : List Event := tr.filter fun e => match e with | .refused _ => false | _ => true

@[simp] theorem outcomes_append (tr tr' : List Event) : outcomes (tr ++ tr') = outcomes tr ++ outcomes tr' :=
  List.filter_append ..

@[simp] theorem outcomes_refused (p : Nat) : outcomes [.refused p] = [] := rfl

theorem Writer.holds_wrap (w : Writer) : w.wrap.holds = w.holds.map (· % 2 ^ 31) := by cases w <;> rfl

theorem WriterRel.holds {N : Nat} {s : State Gate} {w v : Writer} (h : WriterRel N s w v) :
    w.holds = v.holds.map (· % 2 ^ 31) := by
  rcases h with rfl | ⟨t, rfl, rfl, -⟩
  · exact v.holds_wrap
  · rfl

/-! ### When the ring keeps in step -/

/-- The head is within `2 ^ 30` tickets of the cursor. -/
def Within (c : State Nat) : Prop := (c.head + 2 ^ 31 - c.cursor) % 2 ^ 31 ≤ 2 ^ 30

/-- A claim wins its CAS only while the slot of the ticket is free for it. -/
def ClaimsFree (N : Nat) (c : State Nat) : Action → Prop
  | .writer p => ∀ t, c.writers p = .gateMatched t → c.head = t → c.gate (t % N) = t
  | _ => True

/-- One host thread, which names tickets that were claimed, of writers that have stopped, and not a number that is free
again for a ticket to come: a gate that reads `FREE` of it belongs to one of the last `N` tickets claimed. -/
def HostNames (N : Nat) (c : State Nat) (tr : List Event) : Action → Prop
  | .forceRelease h ticket =>
    let t := ticket &&& TICKET_MASK
    h = 0 ∧ (∃ p, .claimed p t ∈ tr) ∧ (∀ p, (c.writers p).holds = some t → c.stopped p = true) ∧
      (c.gate (t % N) = t → (c.head + 2 ^ 31 - 1 - t) % 2 ^ 31 < N)
  | _ => True

/-- No poll meets a gate exactly `2 ^ 30` tickets ahead of the cursor. -/
def PollNear (N : Nat) (c : State Nat) : Action → Prop
  | .drainer => ∀ x, c.drainer = .polling x → c.gate (x % N) ≠ (x + 2 ^ 30) % 2 ^ 31
  | _ => True

/-- What the ring's users keep to. -/
def Assumed (N : Nat) (c : State Nat) (tr : List Event) (a : Action) : Prop :=
  Within c ∧ ClaimsFree N c a ∧ HostNames N c tr a

def InStep (N : Nat) (c : State Nat) (tr : List Event) (a : Action) : Prop := Assumed N c tr a ∧ PollNear N c a

namespace Rel

variable {N : Nat} {c : State Nat} {s : State Gate}

theorem setWriter (h : Rel N c s) (p : Nat) {w v : Writer} (hw : WriterRel N s w v) :
    Rel N (c.setWriter p w) (s.setWriter p v) := by
  refine ⟨h.head, h.cursor, h.gates, h.cells, ?_, h.stopped, h.drainer, h.hosts⟩
  intro q
  show WriterRel N s ((c.setWriter p w).writers q) ((s.setWriter p v).writers q)
  by_cases hq : q = p
  · simpa [hq] using hw
  · simpa [hq] using h.writers q

theorem setCell (h : Rel N c s) (i k v : Nat) : Rel N (c.setCell i k v) (s.setCell i k v) := by
  refine ⟨h.head, h.cursor, ?_, ?_, ?_, h.stopped, h.drainer, h.hosts⟩
  · exact fun j => by simpa using h.gates j
  · exact fun j => by simp [h.cells]
  · exact fun q => by simpa [WriterRel] using h.writers q

/-- Gates move together, and never back. -/
theorem setGate (h : Rel N c s) {i : Nat} {x : Nat} {g : Gate} (hx : x = g.encode)
    (hle : (s.gate i).ticket ≤ g.ticket) : Rel N (c.setGate i x) (s.setGate i g) := by
  refine ⟨h.head, h.cursor, ?_, ?_, ?_, h.stopped, h.drainer, h.hosts⟩
  · intro j
    by_cases hj : j = i
    · simp [hj, hx]
    · simpa [hj] using h.gates j
  · exact fun j => by simpa using h.cells j
  · intro q
    rcases h.writers q with hw | ⟨t, h1, h2, h3⟩
    · exact Or.inl hw
    · refine Or.inr ⟨t, h1, h2, ?_⟩
      by_cases hj : t % N = i
      · rw [hj] at h3
        simpa [hj] using Nat.lt_of_lt_of_le h3 hle
      · simpa [hj] using h3

theorem setDrainer (h : Rel N c s) {d : Drainer} {e : Drainer} (hd : d = e.wrap) (he : ∀ x, e ≠ .polling x := by simp) :
    Rel N { c with drainer := d } { s with drainer := e } :=
  ⟨h.head, h.cursor, h.gates, h.cells, h.writers, h.stopped, Or.inr ⟨hd, he⟩, h.hosts⟩

theorem setHost (h : Rel N c s) (k : Nat) {x y : Host} (hx : x = y.wrap) : Rel N (c.setHost k x) (s.setHost k y) := by
  refine ⟨h.head, h.cursor, h.gates, h.cells, h.writers, h.stopped, h.drainer, ?_⟩
  intro j
  by_cases hj : j = k
  · simp [hj, hx]
  · simpa [hj] using h.hosts j

/-- The cursor passes a ticket and the drainer's call ends. -/
theorem pass (h : Rel N c s) {x y : Nat} (hx : x = y % 2 ^ 31) :
    Rel N { c with cursor := x, drainer := .idle } { s with cursor := y, drainer := .idle } :=
  ⟨h.head, hx, h.gates, h.cells, h.writers, h.stopped, Or.inr ⟨rfl, by simp⟩, h.hosts⟩

theorem setHead (h : Rel N c s) {x y : Nat} (hx : x = y % 2 ^ 31) : Rel N { c with head := x } { s with head := y } :=
  ⟨hx, h.cursor, h.gates, h.cells, h.writers, h.stopped, h.drainer, h.hosts⟩

theorem stop (h : Rel N c s) (p : Nat) :
    Rel N { c with stopped := fun q => if q = p then true else c.stopped q }
      { s with stopped := fun q => if q = p then true else s.stopped q } :=
  ⟨h.head, h.cursor, h.gates, h.cells, h.writers, by simp only [h.stopped], h.drainer, h.hosts⟩

/-- Within a slot, a gate and a ticket are less than a lap apart when the ticket is within `2 ^ 30` of the head. -/
theorem near_gate {i t : Nat} (hi : Inv N s) (hN : SlotCount N) (hlt : i < N) (h1 : t ≤ s.head)
    (h2 : s.head ≤ t + 2 ^ 30) : Near (s.gate i).ticket t := by
  have hw := (hi.gates i hlt).window
  have := Nat.le_of_dvd (by decide) hN.dvd
  exact ⟨by omega, by omega⟩

theorem cursor_within (h : Rel N c s) (hi : Inv N s) (hw : Within c) (hle : s.head ≤ s.cursor + 2 ^ 30 + 1) :
    s.head ≤ s.cursor + 2 ^ 30 := by
  have := hi.cursor_le
  unfold Within at hw
  rw [h.head, h.cursor] at hw
  omega

end Rel

/-- Runs of the unbounded protocol from any state. -/
abbrev Legally (N : Nat) : State Gate → State Gate → List Event → Prop :=
  Run (unbounded N) N fun s _ a => Legal s a

theorem Run.trans {N : Nat} {init s s' : State Gate} {tr evs : List Event} (h : Legally N init s tr)
    (h' : Legally N s s' evs) : Legally N init s' (tr ++ evs) := by
  induction h' with
  | start => simpa using h
  | step _ ha hs ih =>
    rw [← List.append_assoc]
    exact ih.step ha hs

/-- What the unbounded protocol does while the ring takes one step: steps of its own, with the same outcomes. -/
def Follows (N : Nat) (s : State Gate) (c' : State Nat) (evs : List Event) : Prop :=
  ∃ s' evs', Legally N s s' evs' ∧ Rel N c' s' ∧ outcomes evs = (outcomes evs').map Event.wrap ∧
    s'.head ≤ s.head + 1 ∧ s.cursor ≤ s'.cursor

section Simulation

variable {N : Nat} {c c' : State Nat} {s s' : State Gate} {tr evs evs' : List Event}

theorem Follows.step {a : Action} (hs : step (unbounded N) N s a = some (s', evs')) (ha : Legal s a) (hr : Rel N c' s')
    (hev : outcomes evs = (outcomes evs').map Event.wrap) (hh : s'.head ≤ s.head + 1 := by simp)
    (hc : s.cursor ≤ s'.cursor := by simp) : Follows N s c' evs :=
  ⟨s', evs', Run.start.step (a := a) ha hs, hr, hev, hh, hc⟩

theorem State.setWriter_setWriter {G : Type} (s : State G) (p : Nat) (w v : Writer) :
    (s.setWriter p w).setWriter p v = s.setWriter p v := by
  unfold State.setWriter
  simp only [State.mk.injEq, true_and, and_true]
  funext q
  split <;> rfl

theorem stepWriter_eq {G : Type} [DecidableEq G] (e : Encoding G) (s : State G) {p : Nat} (hp : s.stopped p = false) :
    Ring.step e N s (.writer p) = stepWriter e N s p := by
  simp [Ring.step, hp]

/-- A claim from the start, undisturbed, when the head's slot is free. -/
theorem claim_afresh {p : Nat} (hp : s.stopped p = false) (hw : s.writers p = .idle)
    (hg : s.gate (s.head % N) = .free s.head) :
    Legally N s { s.setWriter p (.claimed s.head) with head := s.head + 1 } [.claimed p s.head] := by
  have h1 : Ring.step (unbounded N) N s (.claim p) = some (s.setWriter p (.headLoaded s.head), []) := by
    simp [Ring.step, hp, hw]
  have h2 : Ring.step (unbounded N) N (s.setWriter p (.headLoaded s.head)) (.writer p) =
      some (s.setWriter p (.gateMatched s.head), []) := by
    rw [stepWriter_eq _ _ (by simpa using hp)]
    simp [stepWriter, unbounded, hg, State.setWriter_setWriter]
  have h3 : Ring.step (unbounded N) N (s.setWriter p (.gateMatched s.head)) (.writer p) =
      some ({ s.setWriter p (.claimed s.head) with head := s.head + 1 }, [.claimed p s.head]) := by
    rw [stepWriter_eq _ _ (by simpa using hp)]
    simp [stepWriter, unbounded, State.setWriter_setWriter]
  exact ((Run.start.step (a := .claim p) trivial h1).step (a := .writer p) trivial h2).step (a := .writer p) trivial h3

/-- The bits of the head's ticket in the head's slot are its `FREE`. -/
theorem free_of_encode (hi : Inv N s) (hN : SlotCount N) {t : Nat} (ht : s.head % 2 ^ 31 = t % 2 ^ 31)
    (hg : (s.gate (t % N)).encode = t % 2 ^ 31) : s.gate (s.head % N) = .free s.head := by
  have hslot : t % N = s.head % N := by rw [← hN.slot_mod t, ← ht, hN.slot_mod]
  rw [hslot, ← ht] at hg
  have hlt := Nat.mod_lt s.head hN.pos
  exact (encode_eq_free hN (hi.gates _ hlt).residue (Rel.near_gate hi hN hlt (by omega) (by omega))).mp hg

/-- The ring's head CAS succeeds: the unbounded writer, wherever its attempt stands, loses it and claims afresh. -/
theorem Rel.reclaim (h : Rel N c s) (hi : Inv N s) (hN : SlotCount N) {p t : Nat} (hp : s.stopped p = false)
    (ht : s.head % 2 ^ 31 = t % 2 ^ 31) (hg : (s.gate (t % N)).encode = t % 2 ^ 31)
    (hs : Ring.step (unbounded N) N s (.writer p) = some (s.setWriter p .idle, [.refused p])) :
    Follows N s { c.setWriter p (.claimed (t % 2 ^ 31)) with head := nextTicket (t % 2 ^ 31) }
      [.claimed p (t % 2 ^ 31)] := by
  have hfree := free_of_encode hi hN ht hg
  have h1 : Legally N s (s.setWriter p .idle) ([] ++ [.refused p]) :=
    Run.start.step (a := .writer p) trivial hs
  have h2 : Legally N (s.setWriter p .idle) _ _ := claim_afresh (p := p) (by simpa using hp) (by simp) hfree
  refine ⟨_, _, h1.trans h2, ?_, ?_, by simp, by simp⟩
  · simp only [State.setWriter_setWriter, State.setWriter_head]
    refine Rel.setHead (h.setWriter p (Or.inl ?_)) ?_
    · rw [Writer.wrap, ht]
    · rw [nextTicket_mod, Nat.add_mod, ← ht, ← Nat.add_mod]
  · simpa [outcomes, Event.wrap] using ht.symm

theorem Rel.stepWriter (h : Rel N c s) (hi : Inv N s) (hN : SlotCount N) {p : Nat} (hp : c.stopped p = false)
    (ha : ClaimsFree N c (.writer p)) (hs : stepWriter (u32 N) N c p = some (c', evs)) : Follows N s c' evs := by
  have hp' : s.stopped p = false := by rw [← h.stopped]; exact hp
  have hwo := hi.writers p hp'
  have hstep := stepWriter_eq (N := N) (unbounded N) s hp'
  rcases h.writers p with hw | ⟨t, hw, hv, hlap⟩
  · cases hv : s.writers p with
    | idle => simp [Ring.stepWriter, hw, hv, Writer.wrap] at hs
    | claimed t => simp [Ring.stepWriter, hw, hv, Writer.wrap] at hs
    | headLoaded t =>
      rw [hv] at hwo
      have hlt := Nat.mod_lt t hN.pos
      have hok := hi.gates _ hlt
      simp only [Ring.stepWriter, hw, hv, Writer.wrap, u32, hN.slot_mod, h.gates] at hs
      simp only [Ring.stepWriter, hv, unbounded] at hstep
      by_cases hg : s.gate (t % N) = .free t
      · simp only [hg, ne_eq, not_true_eq_false, ↓reduceIte, Gate.encode, Option.some.injEq, Prod.mk.injEq] at hs hstep
        obtain ⟨rfl, rfl⟩ := hs
        exact Follows.step hstep trivial (h.setWriter p (Or.inl rfl)) rfl
      · simp only [ne_eq, hg, not_false_eq_true, ↓reduceIte] at hstep
        by_cases hbits : (s.gate (t % N)).encode = t % 2 ^ 31
        · -- the bits of a later lap: the ring goes on, the unbounded writer waits before its gate load
          simp only [hbits, ne_eq, not_true_eq_false, ↓reduceIte, Option.some.injEq, Prod.mk.injEq] at hs
          obtain ⟨rfl, rfl⟩ := hs
          refine ⟨s, [], Run.start, ?_, rfl, by simp, Nat.le_refl _⟩
          have hlap : t < (s.gate (t % N)).ticket := by
            have hwin := hok.window
            have hle : t ≤ s.head := hwo
            have hN' := Nat.le_of_dvd (by decide) hN.dvd
            cases hgt : s.gate (t % N) with
            | free u =>
              rw [hgt] at hbits hwin hg
              simp only [Gate.encode] at hbits
              simp only [Gate.ticket] at hwin ⊢
              have hne : u ≠ t := fun h' => hg (congrArg _ h')
              omega
            | published u =>
              rw [hgt] at hbits hok
              exact absurd hbits (hN.succ_ne hok.1)
            | fenced u =>
              rw [hgt] at hbits
              simp only [Gate.encode] at hbits
              omega
          have hrel := h.setWriter p (w := .gateMatched (t % 2 ^ 31)) (v := s.writers p)
            (Or.inr ⟨t, rfl, hv, hlap⟩)
          have hsame : s.setWriter p (s.writers p) = s := by
            unfold State.setWriter
            congr
            funext q
            split <;> simp_all
          rwa [hsame] at hrel
        · simp only [ne_eq, hbits, not_false_eq_true, ↓reduceIte, Option.some.injEq, Prod.mk.injEq] at hs
          obtain ⟨rfl, rfl⟩ := hs
          exact Follows.step hstep trivial (h.setWriter p (Or.inl rfl)) rfl
    | gateMatched t =>
      simp only [Ring.stepWriter, hw, hv, Writer.wrap, u32, h.head] at hs
      simp only [Ring.stepWriter, hv, unbounded] at hstep
      by_cases heq : s.head = t
      · simp only [heq, ↓reduceIte, Option.some.injEq, Prod.mk.injEq] at hs hstep
        obtain ⟨rfl, rfl⟩ := hs
        refine Follows.step hstep trivial ?_ rfl (by simp [heq]) (by simp)
        have hrel := h.setWriter p (w := .claimed (t % 2 ^ 31)) (v := .claimed t) (Or.inl rfl)
        exact hrel.setHead (nextTicket_mod t)
      · simp only [heq, ↓reduceIte] at hstep
        by_cases hbits : s.head % 2 ^ 31 = t % 2 ^ 31
        · simp only [hbits, ↓reduceIte, Option.some.injEq, Prod.mk.injEq] at hs
          obtain ⟨rfl, rfl⟩ := hs
          have hg := ha (t % 2 ^ 31) (by rw [hw, hv]; rfl) (h.head.trans hbits)
          rw [hN.slot_mod, h.gates] at hg
          exact h.reclaim hi hN hp' hbits hg hstep
        · simp only [hbits, ↓reduceIte, Option.some.injEq, Prod.mk.injEq] at hs
          obtain ⟨rfl, rfl⟩ := hs
          exact Follows.step hstep trivial (h.setWriter p (Or.inl rfl)) rfl
    | storing t payload i =>
      have hown := hi.ticket_of_running hp' (by rw [hv]; rfl)
      have hticket : (s.gate (t % N)).ticket = t := by rcases hown with h' | h' <;> rw [h'] <;> rfl
      have hnear : Near (s.gate (t % N)).ticket t := by rw [hticket]; exact ⟨by omega, by omega⟩
      simp only [Ring.stepWriter, hw, hv, Writer.wrap, u32, hN.slot_mod, h.gates] at hs
      simp only [Ring.stepWriter, hv, unbounded] at hstep
      by_cases h8 : i < 8
      · simp only [h8, ↓reduceIte, Option.some.injEq, Prod.mk.injEq] at hs hstep
        obtain ⟨rfl, rfl⟩ := hs
        exact Follows.step hstep trivial ((h.setCell _ _ _).setWriter p (Or.inl rfl)) rfl
      · simp only [h8, ↓reduceIte] at hs hstep
        by_cases hg : s.gate (t % N) = .free t
        · have hbits := (encode_eq_free hN (by rw [hticket]) hnear).mpr hg
          simp only [hbits, ↓reduceIte, Option.some.injEq, Prod.mk.injEq] at hs
          simp only [hg, ↓reduceIte] at hstep
          obtain ⟨rfl, rfl⟩ := hs
          refine Follows.step hstep trivial ((h.setGate ?_ ?_).setWriter p (Or.inl rfl)) rfl
          · exact nextTicket_mod t
          · rw [hticket]; rfl
        · have hbits := mt (encode_eq_free hN (by rw [hticket]) hnear).mp hg
          simp only [hbits, hg, ↓reduceIte, Option.some.injEq, Prod.mk.injEq] at hs hstep
          obtain ⟨rfl, rfl⟩ := hs
          exact Follows.step hstep trivial (h.setWriter p (Or.inl rfl)) rfl
    | reloading t payload =>
      rw [hv] at hwo
      have hg : s.gate (t % N) = .fenced t := hwo
      have hne : t % 2 ^ 31 + 2 ^ 31 ≠ t % 2 ^ 31 := by omega
      simp only [Ring.stepWriter, hw, hv, Writer.wrap, u32, hN.slot_mod, h.gates, hg, Gate.encode, fencedGate_mod,
        hne, ↓reduceIte, Option.some.injEq, Prod.mk.injEq] at hs
      simp only [Ring.stepWriter, hv, unbounded, hg, reduceCtorEq, ↓reduceIte] at hstep
      obtain ⟨rfl, rfl⟩ := hs
      exact Follows.step hstep trivial (h.setWriter p (Or.inl rfl)) rfl
    | selfReleasing t payload =>
      rw [hv] at hwo
      have hg : s.gate (t % N) = .fenced t := hwo
      simp only [Ring.stepWriter, hw, hv, Writer.wrap, u32, hN.slot_mod, h.gates, hg, Gate.encode, fencedGate_mod,
        ↓reduceIte, Option.some.injEq, Prod.mk.injEq] at hs
      simp only [Ring.stepWriter, hv, unbounded, hg, ↓reduceIte] at hstep
      obtain ⟨rfl, rfl⟩ := hs
      refine Follows.step hstep trivial ((h.setGate ?_ ?_).setWriter p (Or.inl rfl)) rfl
      · exact releaseGate_mod N t
      · rw [hg]; exact Nat.le_add_right _ _
  · have hng : s.gate (t % N) ≠ .free t := by
      intro h'
      rw [h'] at hlap
      exact absurd hlap (Nat.lt_irrefl _)
    simp only [Ring.stepWriter, hw, u32, h.head] at hs
    simp only [Ring.stepWriter, hv, unbounded, ne_eq, hng, not_false_eq_true, ↓reduceIte] at hstep
    by_cases hbits : s.head % 2 ^ 31 = t % 2 ^ 31
    · simp only [hbits, ↓reduceIte, Option.some.injEq, Prod.mk.injEq] at hs
      obtain ⟨rfl, rfl⟩ := hs
      have hg := ha (t % 2 ^ 31) hw (h.head.trans hbits)
      rw [hN.slot_mod, h.gates] at hg
      exact h.reclaim hi hN hp' hbits hg hstep
    · simp only [hbits, ↓reduceIte, Option.some.injEq, Prod.mk.injEq] at hs
      obtain ⟨rfl, rfl⟩ := hs
      exact Follows.step hstep trivial (h.setWriter p (Or.inl rfl)) rfl

theorem stepDrainer_eq {G : Type} [DecidableEq G] (e : Encoding G) (s : State G) :
    Ring.step e N s .drainer = stepDrainer e N s := rfl

/-- The gate in the cursor's slot, when the cursor is within `2 ^ 30` of the head: at most `2 ^ 30` tickets ahead. -/
theorem gate_ahead (hi : Inv N s) (hN : SlotCount N) (hw : s.head ≤ s.cursor + 2 ^ 30)
    (hfar : (s.gate (s.cursor % N)).encode ≠ (s.cursor % 2 ^ 31 + 2 ^ 30) % 2 ^ 31)
    (hf : ∀ u, s.gate (s.cursor % N) ≠ .fenced u) :
    s.cursor ≤ (s.gate (s.cursor % N)).ticket ∧ (s.gate (s.cursor % N)).ticket < s.cursor + 2 ^ 30 := by
  have hok := hi.gates _ (Nat.mod_lt s.cursor hN.pos)
  cases hg : s.gate (s.cursor % N) with
  | fenced u => exact absurd hg (hf u)
  | published u =>
    rw [hg] at hok
    obtain ⟨-, -, h3, h4⟩ := hok
    exact ⟨h4, by simp only [Gate.ticket]; omega⟩
  | free u =>
    rw [hg] at hok hfar
    obtain ⟨h1, -, h3, h4⟩ := hok
    refine ⟨h4, ?_⟩
    by_contra hge
    -- tickets of the slot are `N` apart, and so is `cursor + 2 ^ 30`: there is none in between
    have hmod : Nat.ModEq N (s.cursor + 2 ^ 30) u := by
      have h0 : Nat.ModEq N (s.cursor + 2 ^ 30) (s.cursor + 0) :=
        Nat.ModEq.add_left _ (Nat.modEq_zero_iff_dvd.mpr hN.dvd)
      exact h0.trans h1.symm
    simp only [Gate.ticket] at hge
    rcases Nat.lt_or_ge (s.cursor + 2 ^ 30) u with hlt | hle
    · have := hmod.add_le_of_lt hlt
      omega
    · obtain rfl : u = s.cursor + 2 ^ 30 := by omega
      apply hfar
      rw [Gate.encode, Nat.mod_add_mod]

/-- At a gate `2 ^ 30` tickets ahead the skip test fails. -/
theorem gateIsPast_far (hN : SlotCount N) (x : Nat) :
    gateIsPast N ((x % 2 ^ 31 + 2 ^ 30) % 2 ^ 31) (x % 2 ^ 31) = false := by
  have hlt : (x % 2 ^ 31 + 2 ^ 30) % 2 ^ 31 < 2 ^ 31 := Nat.mod_lt _ (by decide)
  have hne : (x % 2 ^ 31 + 2 ^ 30) % 2 ^ 31 ≠ x % 2 ^ 31 := by omega
  have hslot : (x % 2 ^ 31 + 2 ^ 30) % 2 ^ 31 % N = x % 2 ^ 31 % N := by
    rw [Nat.mod_mod_of_dvd _ hN.dvd_space, Nat.add_mod, Nat.mod_eq_zero_of_dvd hN.dvd, Nat.add_zero, Nat.mod_mod]
  have hd : ¬ wrappingSub ((x % 2 ^ 31 + 2 ^ 30) % 2 ^ 31) (x % 2 ^ 31) % 2 ^ 31 < 2 ^ 30 := by
    unfold wrappingSub
    omega
  unfold gateIsPast
  rw [if_neg (by rw [and_fencedBit hlt]; simp)]
  simp only [and_mask, Nat.mod_mod, hne, hslot, ↓reduceIte, hd, decide_false, Bool.and_false]

/-- A poll of the ring whose gate load does not meet the far gate. -/
theorem Rel.poll (h : Rel N c s) (hi : Inv N s) (hN : SlotCount N) (hw : s.head ≤ s.cursor + 2 ^ 30)
    (hd : c.drainer = .polling (s.cursor % 2 ^ 31)) (hidle : s.drainer = .idle)
    (hfar : (s.gate (s.cursor % N)).encode ≠ (s.cursor % 2 ^ 31 + 2 ^ 30) % 2 ^ 31)
    (hs : stepDrainer (u32 N) N c = some (c', evs)) : Follows N s c' evs := by
  have hle := hi.cursor_le
  have hlt := Nat.mod_lt s.cursor hN.pos
  have hres := (hi.gates _ hlt).residue
  have hnear : Near (s.gate (s.cursor % N)).ticket s.cursor := Rel.near_gate hi hN hlt hle hw
  have hpub := encode_eq_published hN hres hnear
  have hpast := gateIsPast_encode hN hres hnear (gate_ahead hi hN hw hfar)
  have hpoll : Ring.step (unbounded N) N s .poll = some ({ s with drainer := .polling s.cursor }, []) := by
    simp [Ring.step, hidle]
  have hstep := stepDrainer_eq (N := N) (unbounded N) { s with drainer := .polling s.cursor }
  -- the unbounded poll starts and loads the gate now
  have hrun : ∀ {s'' evs''}, Ring.step (unbounded N) N { s with drainer := .polling s.cursor } .drainer =
      some (s'', evs'') → Legally N s s'' evs'' := fun hs'' =>
    (Run.start.step (a := .poll) trivial hpoll).step (a := .drainer) trivial hs''
  simp only [Ring.stepDrainer, hd, u32, hN.slot_mod, h.gates, publishedGate, nextTicket_mod, hpub, hpast] at hs
  simp only [Ring.stepDrainer, unbounded] at hstep
  have hgate : State.gate { s with drainer := .polling s.cursor } (s.cursor % N) = s.gate (s.cursor % N) := rfl
  rw [hgate] at hstep
  by_cases hg : s.gate (s.cursor % N) = .published s.cursor
  · simp only [hg, ↓reduceIte, Option.some.injEq, Prod.mk.injEq] at hs hstep
    obtain ⟨rfl, rfl⟩ := hs
    exact ⟨_, _, hrun hstep, h.setDrainer rfl, rfl, Nat.le_succ _, Nat.le_refl _⟩
  · simp only [hg, ↓reduceIte] at hs hstep
    by_cases hp : (s.gate (s.cursor % N)).isPast s.cursor = true
    · simp only [hp, ↓reduceIte, Option.some.injEq, Prod.mk.injEq] at hs hstep
      obtain ⟨rfl, rfl⟩ := hs
      exact ⟨_, _, hrun hstep, h.setDrainer rfl, rfl, Nat.le_succ _, Nat.le_refl _⟩
    · simp only [hp, Bool.false_eq_true, ↓reduceIte, Option.some.injEq, Prod.mk.injEq] at hs hstep
      obtain ⟨rfl, rfl⟩ := hs
      exact ⟨_, _, hrun hstep, h.setDrainer rfl, rfl, Nat.le_succ _, Nat.le_refl _⟩

/-- A drainer's step, other than the gate load of a poll. -/
theorem Rel.stepDrainer (h : Rel N c s) (hi : Inv N s) (hN : SlotCount N) (hd : DrainerOk N s tr s.drainer)
    (hw : s.head ≤ s.cursor + 2 ^ 30) (hwrap : c.drainer = s.drainer.wrap) (hnp : ∀ x, s.drainer ≠ .polling x)
    (hs : stepDrainer (u32 N) N c = some (c', evs)) : Follows N s c' evs := by
  have hstep := stepDrainer_eq (N := N) (unbounded N) s
  have hle := hi.cursor_le
  have hlt := Nat.mod_lt s.cursor hN.pos
  have hres := (hi.gates _ hlt).residue
  have hnear : Near (s.gate (s.cursor % N)).ticket s.cursor := Rel.near_gate hi hN hlt hle hw
  cases hsd : s.drainer with
  | idle => simp [Ring.stepDrainer, hwrap, hsd, Drainer.wrap] at hs
  | polling x => exact absurd hsd (hnp x)
  | reading x words =>
    simp only [Ring.stepDrainer, hwrap, hsd, Drainer.wrap, hN.slot_mod, h.cells, Option.some.injEq,
      Prod.mk.injEq] at hs
    simp only [Ring.stepDrainer, hsd] at hstep
    obtain ⟨rfl, rfl⟩ := hs
    refine Follows.step hstep trivial (h.setDrainer ?_ ?_) rfl
    · split <;> rfl
    · split <;> simp
  | releasing x words =>
    rw [hsd] at hd
    obtain ⟨rfl, hg, -⟩ := hd
    simp only [Ring.stepDrainer, hwrap, hsd, Drainer.wrap, u32, hN.slot_mod, Option.some.injEq,
      Prod.mk.injEq] at hs
    simp only [Ring.stepDrainer, hsd, unbounded] at hstep
    obtain ⟨rfl, rfl⟩ := hs
    have hrel := h.setGate (i := s.cursor % N) (g := .free (s.cursor + N)) (releaseGate_mod N s.cursor)
      (by rw [hg]; exact Nat.le_add_right _ _)
    exact Follows.step hstep trivial (hrel.setDrainer rfl) rfl
  | advancing x words =>
    rw [hsd] at hd
    obtain ⟨rfl, -⟩ := hd
    simp only [Ring.stepDrainer, hwrap, hsd, Drainer.wrap, u32, Option.some.injEq, Prod.mk.injEq] at hs
    simp only [Ring.stepDrainer, hsd, unbounded] at hstep
    obtain ⟨rfl, rfl⟩ := hs
    exact Follows.step hstep trivial (h.pass (nextTicket_mod _)) rfl
  | skipping x =>
    rw [hsd] at hd
    obtain ⟨rfl, -⟩ := hd
    simp only [Ring.stepDrainer, hwrap, hsd, Drainer.wrap, u32, Option.some.injEq, Prod.mk.injEq] at hs
    simp only [Ring.stepDrainer, hsd, unbounded] at hstep
    obtain ⟨rfl, rfl⟩ := hs
    exact Follows.step hstep trivial (h.pass (nextTicket_mod _)) rfl
  | fencing x =>
    rw [hsd] at hd
    obtain rfl : x = s.cursor := hd
    have hiff : c.head = s.cursor % 2 ^ 31 ↔ s.head = s.cursor := by
      rw [h.head]
      exact ⟨Near.eq_of_mod_eq ⟨by omega, by omega⟩, fun h' => by rw [h']⟩
    simp only [Ring.stepDrainer, hwrap, hsd, Drainer.wrap, hiff] at hs
    simp only [Ring.stepDrainer, hsd] at hstep
    by_cases heq : s.head = s.cursor
    · simp only [if_pos heq, Option.some.injEq, Prod.mk.injEq] at hs hstep
      obtain ⟨rfl, rfl⟩ := hs
      exact Follows.step hstep trivial (h.setDrainer rfl) rfl
    · simp only [if_neg heq, Option.some.injEq, Prod.mk.injEq] at hs hstep
      obtain ⟨rfl, rfl⟩ := hs
      exact Follows.step hstep trivial (h.setDrainer rfl) rfl
  | fenceCas x =>
    rw [hsd] at hd
    obtain ⟨rfl, -⟩ := hd
    have hfree := encode_eq_free hN hres hnear
    simp only [Ring.stepDrainer, hwrap, hsd, Drainer.wrap, u32, hN.slot_mod, h.gates, hfree] at hs
    simp only [Ring.stepDrainer, hsd, unbounded] at hstep
    by_cases hg : s.gate (s.cursor % N) = .free s.cursor
    · simp only [hg, ↓reduceIte, Option.some.injEq, Prod.mk.injEq] at hs hstep
      obtain ⟨rfl, rfl⟩ := hs
      have hrel := h.setGate (i := s.cursor % N) (g := .fenced s.cursor) (fencedGate_mod s.cursor)
        (by rw [hg]; exact Nat.le_refl _)
      exact Follows.step hstep trivial (hrel.setDrainer rfl) rfl
    · simp only [hg, ↓reduceIte, Option.some.injEq, Prod.mk.injEq] at hs hstep
      obtain ⟨rfl, rfl⟩ := hs
      exact Follows.step hstep trivial (h.setDrainer rfl) rfl
  | fenceAdvancing x =>
    rw [hsd] at hd
    obtain ⟨rfl, -⟩ := hd
    simp only [Ring.stepDrainer, hwrap, hsd, Drainer.wrap, u32, Option.some.injEq, Prod.mk.injEq] at hs
    simp only [Ring.stepDrainer, hsd, unbounded] at hstep
    obtain ⟨rfl, rfl⟩ := hs
    exact Follows.step hstep trivial (h.pass (nextTicket_mod _)) rfl

/-- The host's ticket, counted without wrapping: the one the gate names, if the gate's bits are of its number. -/
theorem Rel.beginRelease (h : Rel N c s) (hi : Inv N s) (hN : SlotCount N)
    (htr : ∀ p t, .claimed p t ∈ tr → ∃ u, t = u % 2 ^ 31 ∧ u < s.head) {ticket : Nat}
    (ha : HostNames N c tr (.forceRelease 0 ticket)) (hidle : s.hosts 0 = .idle)
    (hs : beginRelease (u32 N) N c 0 (ticket &&& TICKET_MASK) = (c', evs)) : Follows N s c' evs := by
  obtain ⟨-, ⟨p, hclaimed⟩, hstop, hrecent⟩ := ha
  obtain ⟨u, htu, hu⟩ := htr p _ hclaimed
  rw [htu] at hs hstop hrecent
  rw [hN.slot_mod, h.gates] at hrecent
  have hlt := Nat.mod_lt u hN.pos
  have hok := hi.gates _ hlt
  have hres := hok.residue
  have hwin := hok.window
  have hN' := Nat.le_of_dvd (by decide) hN.dvd
  have hstop' : ∀ v, v % 2 ^ 31 = u % 2 ^ 31 → ∀ q, (s.writers q).holds = some v → s.stopped q = true := by
    intro v hv q hq
    rw [← h.stopped]
    apply hstop q
    rw [(h.writers q).holds, hq, ← hv]
    rfl
  have hstep : ∀ v, Ring.step (unbounded N) N s (.forceRelease 0 v) = some (Ring.beginRelease (unbounded N) N s 0 v) := by
    intro v
    simp [Ring.step, hidle, unbounded]
  unfold Ring.beginRelease at hs
  simp only [u32, hN.slot_mod, h.gates, fencedGate_mod, publishedGate, nextTicket_mod] at hs
  -- the ticket of the gate, whose number is the host's when the bits agree
  have hlegal : ∀ v, v < s.head → v % 2 ^ 31 = u % 2 ^ 31 → Legal s (.forceRelease 0 v) :=
    fun v hv hmod => ⟨rfl, hv, hstop' v hmod⟩
  cases hg : s.gate (u % N) with
  | free v =>
    rw [hg] at hs hres hrecent hok
    simp only [Gate.encode] at hs hrecent
    have hslot : v % N = u % N := hres
    have hne : v % 2 ^ 31 ≠ (u + 1) % 2 ^ 31 := fun h' => hN.succ_ne hslot.symm h'.symm
    have hne' : v % 2 ^ 31 ≠ u % 2 ^ 31 + 2 ^ 31 := by omega
    by_cases hbits : v % 2 ^ 31 = u % 2 ^ 31
    · have hvhead : v < s.head := by
        have := hrecent hbits
        rw [h.head] at this
        have h3 : v < s.head + N := hok.2.2.1
        by_contra hge
        have h4 : (s.head % 2 ^ 31 + 2 ^ 31 - 1 - v % 2 ^ 31) % 2 ^ 31 < N := by rw [hbits]; exact this
        omega
      simp only [hbits, true_or, ↓reduceIte, Prod.mk.injEq] at hs
      obtain ⟨rfl, rfl⟩ := hs
      have hb := hstep v
      rw [Ring.beginRelease, hslot, hg] at hb
      simp only [unbounded, true_or, ↓reduceIte] at hb
      exact Follows.step hb (hlegal v hvhead hbits) (h.setHost 0 (by rw [Host.wrap, hbits])) rfl
    · simp only [hbits, hne, hne', or_self, ↓reduceIte, Prod.mk.injEq] at hs
      obtain ⟨rfl, rfl⟩ := hs
      have hb := hstep u
      have hvu : v ≠ u := fun h' => hbits (h' ▸ rfl)
      rw [Ring.beginRelease, hg] at hb
      simp only [unbounded, Gate.free.injEq, hvu, reduceCtorEq, or_self, ↓reduceIte] at hb
      exact Follows.step hb (hlegal u hu rfl) h rfl
  | published v =>
    rw [hg] at hs hres hok
    simp only [Gate.encode] at hs
    have hslot : v % N = u % N := hres
    have hne : (v + 1) % 2 ^ 31 ≠ u % 2 ^ 31 := hN.succ_ne hslot
    have hne' : (v + 1) % 2 ^ 31 ≠ u % 2 ^ 31 + 2 ^ 31 := by omega
    by_cases hbits : (v + 1) % 2 ^ 31 = (u + 1) % 2 ^ 31
    · simp only [hne, hne', or_self, ↓reduceIte] at hs
      simp only [hbits, ↓reduceIte, Prod.mk.injEq] at hs
      obtain ⟨rfl, rfl⟩ := hs
      have hmod : v % 2 ^ 31 = u % 2 ^ 31 := by omega
      have hb := hstep v
      rw [Ring.beginRelease, hslot, hg] at hb
      simp only [unbounded, reduceCtorEq, or_self, ↓reduceIte] at hb
      exact Follows.step hb (hlegal v hok.2.2.1 hmod) h (by simpa [outcomes, Event.wrap] using hmod.symm)
    · simp only [hne, hne', or_self, ↓reduceIte, hbits, Prod.mk.injEq] at hs
      obtain ⟨rfl, rfl⟩ := hs
      have hb := hstep u
      have hvu : v ≠ u := fun h' => hbits (h' ▸ rfl)
      rw [Ring.beginRelease, hg] at hb
      simp only [unbounded, Gate.published.injEq, hvu, reduceCtorEq, or_self, ↓reduceIte] at hb
      exact Follows.step hb (hlegal u hu rfl) h rfl
  | fenced v =>
    rw [hg] at hs hres hok
    simp only [Gate.encode] at hs
    have hslot : v % N = u % N := hres
    have hne : v % 2 ^ 31 + 2 ^ 31 ≠ u % 2 ^ 31 := by omega
    have hne' : v % 2 ^ 31 + 2 ^ 31 ≠ (u + 1) % 2 ^ 31 := by omega
    by_cases hbits : v % 2 ^ 31 = u % 2 ^ 31
    · simp only [hbits, or_true, ↓reduceIte, Prod.mk.injEq] at hs
      obtain ⟨rfl, rfl⟩ := hs
      have hb := hstep v
      rw [Ring.beginRelease, hslot, hg] at hb
      simp only [unbounded, or_true, ↓reduceIte] at hb
      exact Follows.step hb (hlegal v hok.2.2.1 hbits) (h.setHost 0 (by rw [Host.wrap, hbits])) rfl
    · have hne'' : v % 2 ^ 31 + 2 ^ 31 ≠ u % 2 ^ 31 + 2 ^ 31 := by omega
      simp only [hne, hne', hne'', or_self, ↓reduceIte, Prod.mk.injEq] at hs
      obtain ⟨rfl, rfl⟩ := hs
      have hb := hstep u
      have hvu : v ≠ u := fun h' => hbits (h' ▸ rfl)
      rw [Ring.beginRelease, hg] at hb
      simp only [unbounded, Gate.fenced.injEq, hvu, reduceCtorEq, or_self, ↓reduceIte] at hb
      exact Follows.step hb (hlegal u hu rfl) h rfl

/-- A poll that meets a gate `2 ^ 30` tickets ahead changes nothing. -/
def PollsFar (N : Nat) (c : State Nat) (a : Action) (c' : State Nat) (evs : List Event) : Prop :=
  ¬ PollNear N c a ∧ evs = [.awaiting c.cursor] ∧ c' = { c with drainer := .idle }

theorem Rel.pollFar (h : Rel N c s) (hN : SlotCount N) (hd : c.drainer = .polling (s.cursor % 2 ^ 31))
    (hidle : s.drainer = .idle) (hfar : (s.gate (s.cursor % N)).encode = (s.cursor % 2 ^ 31 + 2 ^ 30) % 2 ^ 31)
    (hs : step (u32 N) N c .drainer = some (c', evs)) : PollsFar N c .drainer c' evs ∧ Rel N c' s := by
  have hpast := gateIsPast_far hN s.cursor
  have hne : (s.cursor % 2 ^ 31 + 2 ^ 30) % 2 ^ 31 ≠ (s.cursor + 1) % 2 ^ 31 := by omega
  rw [stepDrainer_eq] at hs
  simp only [Ring.stepDrainer, hd, u32, hN.slot_mod, h.gates, hfar, publishedGate, nextTicket_mod, hne, hpast,
    Bool.false_eq_true, ↓reduceIte, Option.some.injEq, Prod.mk.injEq] at hs
  obtain ⟨rfl, rfl⟩ := hs
  refine ⟨⟨?_, by rw [h.cursor], rfl⟩, ?_⟩
  · intro hnear
    apply hnear _ hd
    rw [hN.slot_mod, h.gates, hfar]
  · refine ⟨h.head, h.cursor, h.gates, h.cells, h.writers, h.stopped, Or.inr ⟨?_, ?_⟩, h.hosts⟩
    · rw [hidle]; rfl
    · rw [hidle]; simp

/-- One step of the ring that its users may take, followed by the unbounded protocol; a poll that meets the far gate
has no counterpart there. -/
theorem Rel.step (h : Rel N c s) (hi : Inv N s) (hN : SlotCount N) {seed : Nat} {tr' : List Event}
    (hl : Log N seed s tr') (htr : ∀ p t, .claimed p t ∈ tr → ∃ u, t = u % 2 ^ 31 ∧ u < s.head)
    (hw : s.head ≤ s.cursor + 2 ^ 30 + 1) {a : Action} (ha : Assumed N c tr a)
    (hs : step (u32 N) N c a = some (c', evs)) :
    Follows N s c' evs ∨ (PollsFar N c a c' evs ∧ Rel N c' s) := by
  obtain ⟨hwithin, hclaims, hnames⟩ := ha
  have hw' := h.cursor_within hi hwithin hw
  cases a with
  | claim p =>
    simp only [Ring.step] at hs
    split at hs
    · rename_i hp
      obtain ⟨rfl, rfl⟩ := Prod.mk.inj (Option.some.inj hs)
      have hidle : s.writers p = .idle := by
        rcases h.writers p with hv | ⟨t, hv, -⟩
        · rw [hp.2] at hv
          cases hsv : s.writers p <;> rw [hsv] at hv <;> simp [Writer.wrap] at hv
        · rw [hp.2] at hv
          cases hv
      have hstep : Ring.step (unbounded N) N s (.claim p) = some (s.setWriter p (.headLoaded s.head), []) := by
        simp [Ring.step, hidle, ← h.stopped, hp.1]
      exact Or.inl (Follows.step hstep trivial (h.setWriter p (Or.inl (by rw [h.head]; rfl))) rfl)
    · cases hs
  | publish p payload =>
    simp only [Ring.step] at hs
    split at hs
    · rename_i t hwc
      split at hs
      · cases hs
      · rename_i hp
        obtain ⟨rfl, rfl⟩ := Prod.mk.inj (Option.some.inj hs)
        obtain ⟨v, hv, rfl⟩ : ∃ v, s.writers p = .claimed v ∧ t = v % 2 ^ 31 := by
          rcases h.writers p with hv | ⟨t, hv, -⟩
          · rw [hwc] at hv
            cases hsv : s.writers p <;> rw [hsv] at hv <;> simp only [Writer.wrap, reduceCtorEq, Writer.claimed.injEq] at hv
            exact ⟨_, rfl, hv⟩
          · rw [hwc] at hv
            cases hv
        have hstep : Ring.step (unbounded N) N s (.publish p payload) =
            some (s.setWriter p (.storing v payload 0), []) := by
          simp [Ring.step, hv, ← h.stopped, hp]
        exact Or.inl (Follows.step hstep trivial (h.setWriter p (Or.inl rfl)) rfl)
    · cases hs
  | writer p =>
    simp only [Ring.step] at hs
    split at hs
    · cases hs
    · rename_i hp
      exact Or.inl (h.stepWriter hi hN (Bool.eq_false_of_not_eq_true hp) hclaims hs)
  | stop p =>
    obtain ⟨rfl, rfl⟩ := Prod.mk.inj (Option.some.inj hs)
    exact Or.inl (Follows.step (a := .stop p) rfl trivial (h.stop p) rfl)
  | poll =>
    simp only [Ring.step] at hs
    split at hs
    · rename_i hd
      obtain ⟨rfl, rfl⟩ := Prod.mk.inj (Option.some.inj hs)
      -- nothing is loaded yet: the unbounded drainer stays idle until the gate load
      refine Or.inl ⟨s, [], Run.start, ?_, rfl, Nat.le_succ _, Nat.le_refl _⟩
      refine ⟨h.head, h.cursor, h.gates, h.cells, h.writers, h.stopped, Or.inl ⟨?_, h.drainer.of_idle hd⟩, h.hosts⟩
      rw [h.cursor]
    · cases hs
  | fence =>
    simp only [Ring.step] at hs
    split at hs
    · rename_i hd
      obtain ⟨rfl, rfl⟩ := Prod.mk.inj (Option.some.inj hs)
      have hstep : Ring.step (unbounded N) N s .fence = some ({ s with drainer := .fencing s.cursor }, []) := by
        simp [Ring.step, h.drainer.of_idle hd]
      exact Or.inl (Follows.step hstep trivial (h.setDrainer (by rw [h.cursor]; rfl)) rfl)
    · cases hs
  | drainer =>
    rcases h.drainer with ⟨hd, hidle⟩ | ⟨hwrap, hnp⟩
    · by_cases hfar : (s.gate (s.cursor % N)).encode = (s.cursor % 2 ^ 31 + 2 ^ 30) % 2 ^ 31
      · exact Or.inr (h.pollFar hN hd hidle hfar hs)
      · exact Or.inl (h.poll hi hN hw' hd hidle hfar hs)
    · exact Or.inl (h.stepDrainer hi hN hl.drainer hw' hwrap hnp hs)
  | forceRelease k ticket =>
    obtain rfl : k = 0 := hnames.1
    simp only [Ring.step] at hs
    split at hs
    · rename_i hidle
      rw [h.hosts] at hidle
      refine Or.inl (h.beginRelease hi hN htr hnames ?_ (Option.some.inj hs))
      cases hsh : s.hosts 0 with
      | idle => rfl
      | releasing t =>
        rw [hsh] at hidle
        cases hidle
    · cases hs
  | host k =>
    simp only [Ring.step, h.hosts] at hs
    cases hsh : s.hosts k with
    | idle => simp [hsh, Host.wrap] at hs
    | releasing t =>
      simp only [hsh, Host.wrap, u32, hN.slot_mod, Option.some.injEq, Prod.mk.injEq] at hs
      obtain ⟨rfl, rfl⟩ := hs
      obtain rfl : k = 0 := by
        by_contra hne
        rw [hi.hosts k hne] at hsh
        cases hsh
      have hstep : Ring.step (unbounded N) N s (.host 0) =
          some ((s.setGate (t % N) (.free (t + N))).setHost 0 .idle, [.freed t, .released t]) := by
        simp [Ring.step, hsh, unbounded]
      refine Or.inl (Follows.step hstep trivial ((h.setGate (releaseGate_mod N t) ?_).setHost 0 rfl) rfl)
      rcases (hi.host t hsh).2.1 with h' | h' <;> rw [h'] <;> exact Nat.le_add_right _ _

end Simulation

/-- A ring and its unbounded counterpart start alike. -/
theorem rel_withHead {N : Nat} (hN : SlotCount N) (head : Nat) :
    Rel N (withHead (u32 N) N (head % 2 ^ 31)) (withHead (unbounded N) N head) := by
  have hseed : ∀ n t (x : Nat → Slot Nat) (y : Nat → Slot Gate), (∀ j, (x j).gate = (y j).gate.encode) → ∀ j,
      (seedGates (u32 N) N n (t % 2 ^ 31) x j).gate = (seedGates (unbounded N) N n t y j).gate.encode := by
    intro n
    induction n with
    | zero => exact fun _ _ _ h => h
    | succ n ih =>
      intro t x y h j
      simp only [seedGates, u32, nextTicket_mod, hN.slot_mod]
      refine ih (t + 1) _ _ (fun i => ?_) j
      by_cases hi : i = t % N
      · simp [hi, unbounded, Gate.encode]
      · simpa [hi] using h i
  refine ⟨rfl, rfl, ?_, ?_, fun _ => Or.inl rfl, rfl, Or.inr ⟨rfl, by simp [withHead]⟩, fun _ => rfl⟩
  · exact hseed N head _ _ fun _ => rfl
  · intro j
    show (seedGates (u32 N) N N _ _ j).cells = (seedGates (unbounded N) N N _ _ j).cells
    rw [cells_seedGates, cells_seedGates]

end Horton.Ring
