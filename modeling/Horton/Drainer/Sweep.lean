import Horton.Drainer.Account

/-!
# The steps of a sweep

A run of the drainer next to its counterpart over tickets that never wrap: the tickets the cursor has passed are those
acknowledged, then those pending, in ticket order, and every CAS on `durable` succeeds.
-/

namespace Horton.Drainer

open BlockDev Horton.Ring

/-! ### The assumptions on a run -/

def ringEvents (tr : List Event) : List Ring.Event := tr.filterMap Event.toRing

/-- All tickets in use are within `2 ^ 30` of each other. -/
def NearTickets (s : State) : Prop := (s.ring.head + 2 ^ 31 - s.durable) % 2 ^ 31 ≤ 2 ^ 30

/-- What the users of ring and drainer keep to. -/
def Assumed (N : Nat) (s : State) (tr : List Event) : Action → Prop
  | .ring a => NearTickets s ∧ ClaimsFree N s.ring a ∧ HostNames N s.ring (ringEvents tr) a
  | _ => NearTickets s

/-- Runs from `init`. -/
inductive Run (sh : Shape) (N maxWrites : Nat) (init : State) : State → List Event → Prop
  | start : Run sh N maxWrites init init []
  | step {s s' tr evs a} : Run sh N maxWrites init s tr → Assumed N s tr a → step sh N maxWrites s a = some (s', evs) →
      Run sh N maxWrites init s' (tr ++ evs)

theorem Assumed.near {N : Nat} {s : State} {tr : List Event} {a : Action} (h : Assumed N s tr a) : NearTickets s := by
  cases a with
  | ring a => exact h.1
  | _ => exact h

/-! ### The sweep over unbounded tickets -/

/-- The counterpart over tickets that never wrap: the ring, the pending tickets, the trace, the first ticket not yet
resolved by a completed sweep, and the watermark. -/
structure Ghost where
  ring : Ring.State Gate
  pending : List Pending
  trace : List Event
  base : Nat
  mark : Nat

/-- Where the sweep stands, over unbounded tickets. -/
def Stage (c : State) (g : Ghost) : Prop :=
  match c.phase with
  | .idle | .batching | .off =>
    c.ring.drainer = .idle ∧ g.mark = g.base ∧ g.ring.cursor = g.base + g.pending.length
  | .draining =>
    (c.ring.drainer = .idle ∨ c.ring.drainer.polls = true) ∧ g.mark = g.base ∧
      g.ring.cursor = g.base + g.pending.length
  | .fencing => c.ring.drainer.fences = true ∧ g.mark = g.base ∧ g.ring.cursor = g.base ∧ g.pending = []
  | .fenceAck t =>
    c.ring.drainer = .idle ∧ g.mark = g.base ∧ g.ring.cursor = g.base + 1 ∧ g.pending = [] ∧ t = g.base % 2 ^ 31 ∧
      .ring (.fencedCursor g.base) ∈ g.trace
  | .acking i =>
    c.ring.drainer = .idle ∧ g.mark = g.base + i ∧ i ≤ g.pending.length ∧ g.ring.cursor = g.base + g.pending.length ∧
      ∀ p ∈ g.pending, Warranted g.trace p.ticket p.resolution

/-- Nothing past the acknowledged tickets is applied yet, unless their acknowledgement is under way. -/
def Settled (c : State) (g : Ghost) : Prop :=
  (∀ i, c.phase ≠ .acking i) → ∀ x ∈ g.trace.flatMap Event.applied, x.1 < g.base

structure Sim (sh : Shape) (N seed : Nat) (init c : State) (tr : List Event) (g : Ghost) : Prop where
  legal : Legally N (withHead (unbounded N) N seed) g.ring (ringEvents g.trace)
  rel : Rel N c.ring g.ring
  taken : tr.filter Event.taken = (g.trace.filter Event.taken).map Event.wrap
  durable : c.durable = g.mark % 2 ^ 31
  head_le : g.ring.head ≤ g.mark + 2 ^ 30 + 1
  moves : g.trace.filterMap Event.movedTicket = List.range' seed (g.mark - seed)
  missed : ∀ t, .missed t ∉ g.trace
  pending : c.pending = g.pending.map Pending.wrap
  tickets : g.pending.map Pending.ticket = List.range' g.base g.pending.length
  said : ∀ p ∈ g.pending, Said g.trace p
  stage : Stage c g
  settled : Settled c g
  account : Account sh init seed g.base g.ring.cursor g.trace c.db c.device

/-! ### Steps of the ring -/

theorem filter_taken_ring (evs : List Ring.Event) :
    (evs.map Event.ring).filter Event.taken = (Ring.taken evs).map Event.ring := by
  unfold Ring.taken
  rw [List.filter_map]
  congr 1
  apply List.filter_congr
  intro e _
  cases e <;> rfl

theorem ringEvents_append (tr evs : List Event) : ringEvents (tr ++ evs) = ringEvents tr ++ ringEvents evs :=
  List.filterMap_append

@[simp] theorem ringEvents_map_ring (evs : List Ring.Event) : ringEvents (evs.map .ring) = evs := by
  simp [ringEvents, Event.toRing, Function.comp_def]

theorem passed_taken (evs : List Ring.Event) :
    (Ring.taken evs).filterMap Event.passedTicket = evs.filterMap Event.passedTicket := by
  unfold Ring.taken
  rw [List.filterMap_filter]
  congr
  funext e
  cases e <;> rfl

/-- One event that passes a ticket, seen from both sides: it passes the cursor. -/
theorem passes_cursor {s s' : Ring.State Gate} {e : Ring.Event} {evs' : List Ring.Event} {t : Nat}
    (htk : [e] = (Ring.taken evs').map Ring.Event.wrap) (ht : e.passedTicket = some t)
    (hp : evs'.filterMap Event.passedTicket = List.range' s.cursor (s'.cursor - s.cursor)) :
    ∃ e', e' ∈ evs' ∧ e'.wrap = e ∧ e'.passedTicket = some s.cursor ∧ s'.cursor = s.cursor + 1 := by
  obtain ⟨e', he'⟩ := List.length_eq_one_iff.mp ((List.length_map _).symm.trans (congrArg List.length htk.symm))
  rw [he'] at htk
  have hw : e'.wrap = e := by simpa using htk.symm
  obtain ⟨u, hu⟩ : ∃ u, e'.passedTicket = some u := by
    cases e' <;> subst hw <;> simp [Event.passedTicket, Ring.Event.wrap] at ht ⊢
  have hmem : e' ∈ Ring.taken evs' := by simp [he']
  rw [← passed_taken, he', List.filterMap_cons, hu] at hp
  have hlen : s'.cursor - s.cursor = 1 := by simpa using (congrArg List.length hp).symm
  rw [hlen] at hp
  have huc : u = s.cursor := by simpa using hp
  exact ⟨e', (List.mem_filter.mp hmem).1, hw, huc ▸ hu, by omega⟩

/-- Without such an event the cursor stays. -/
theorem cursor_stays {s s' : Ring.State Gate} {evs evs' : List Ring.Event}
    (htk : Ring.taken evs = (Ring.taken evs').map Ring.Event.wrap) (hno : ∀ e ∈ evs, e.passedTicket = none)
    (hcur : s.cursor ≤ s'.cursor)
    (hp : evs'.filterMap Event.passedTicket = List.range' s.cursor (s'.cursor - s.cursor)) : s'.cursor = s.cursor := by
  have hnil : evs'.filterMap Event.passedTicket = [] := by
    rw [← passed_taken, List.filterMap_eq_nil_iff]
    intro e' he'
    have hm : e'.wrap ∈ Ring.taken evs := by rw [htk]; exact List.mem_map_of_mem he'
    have := hno _ (List.mem_filter.mp hm).1
    cases e' <;> first | rfl | cases this
  rw [hnil] at hp
  have := congrArg List.length hp
  simp only [List.length_nil, List.length_range'] at this
  omega

theorem passed_others {e : Ring.Event} (h : e.ofDrainer = false) : e.passedTicket = none := by
  cases e <;> first | rfl | cases h

namespace Sim

variable {sh : Shape} {N seed : Nat} {init c c' : State} {tr : List Event} {g : Ghost}

theorem mark_le (h : Sim sh N seed init c tr g) : g.base ≤ g.mark ∧ g.mark ≤ g.ring.cursor := by
  have hst := h.stage
  unfold Stage at hst
  split at hst <;> omega

theorem safe (h : Sim sh N seed init c tr g) (hN : SlotCount N) :
    Inv N g.ring ∧ Log N seed g.ring (ringEvents g.trace) := Run.safe hN.pos h.legal

/-- While the tickets are near, the head is. -/
theorem head_near (h : Sim sh N seed init c tr g) (hN : SlotCount N) (hnear : NearTickets c) :
    g.ring.head ≤ g.mark + 2 ^ 30 := by
  have h1 := h.mark_le
  have h2 := (h.safe hN).1.cursor_le
  have h3 := h.head_le
  unfold NearTickets at hnear
  rw [h.rel.head, h.durable] at hnear
  omega

theorem claimed (h : Sim sh N seed init c tr g) (hN : SlotCount N) {p t : Nat} (hp : .claimed p t ∈ ringEvents tr) :
    ∃ u, t = u % 2 ^ 31 ∧ u < g.ring.head := by
  have hmem : Event.ring (.claimed p t) ∈ tr := by
    obtain ⟨e, he, heq⟩ := List.mem_filterMap.mp hp
    cases e with
    | ring e =>
      simp only [Event.toRing, Option.some.injEq] at heq
      exact heq ▸ he
    | _ => cases heq
  have h1 : Event.ring (.claimed p t) ∈ tr.filter Event.taken := List.mem_filter.mpr ⟨hmem, rfl⟩
  rw [h.taken] at h1
  obtain ⟨e, he, hw⟩ := List.mem_map.mp h1
  cases e with
  | ring e =>
    cases e with
    | claimed q u =>
      simp only [Event.wrap, Ring.Event.wrap, Event.ring.injEq, Ring.Event.claimed.injEq] at hw
      have hu : .claimed q u ∈ ringEvents g.trace := List.mem_filterMap.mpr ⟨_, (List.mem_filter.mp he).1, rfl⟩
      exact ⟨u, hw.2.symm, ((h.safe hN).2.claimed_lt hu).2⟩
    | _ => simp [Event.wrap, Ring.Event.wrap] at hw
  | _ => simp [Event.wrap] at hw

/-- A step of the ring, followed over unbounded tickets. -/
theorem follow (h : Sim sh N seed init c tr g) (hN : SlotCount N) (hnear : NearTickets c) {a : Ring.Action}
    (hclaims : ClaimsFree N c.ring a) (hnames : HostNames N c.ring (ringEvents tr) a) {r : Ring.State Nat}
    {evs : List Ring.Event} (hs : Ring.step (u32 N) N c.ring a = some (r, evs)) :
    ∃ s evs', Legally N (withHead (unbounded N) N seed) s (ringEvents g.trace ++ evs') ∧ Rel N r s ∧
      Ring.taken evs = (Ring.taken evs').map Ring.Event.wrap ∧ s.head ≤ g.mark + 2 ^ 30 + 1 ∧
      g.ring.cursor ≤ s.cursor ∧
      evs'.filterMap Event.passedTicket = List.range' g.ring.cursor (s.cursor - g.ring.cursor) := by
  obtain ⟨hi, hl⟩ := h.safe hN
  have hhead := h.head_near hN hnear
  have hmark := h.mark_le
  have hcur := hi.cursor_le
  have hwithin : Within c.ring := by
    unfold Within
    rw [h.rel.head, h.rel.cursor]
    omega
  have hpassed := Run.passed hN.pos h.legal
  rcases h.rel.step hi hN hl (fun p t => h.claimed hN) (by omega) ⟨hwithin, hclaims, hnames⟩ hs with
    ⟨s, evs', hpath, hrel, hev, h1, h2⟩ | ⟨⟨-, rfl, -⟩, hrel⟩
  · have hlegal := h.legal.trans hpath
    refine ⟨s, evs', hlegal, hrel, ?_, by omega, h2, ?_⟩
    · rw [← taken_outcomes, hev, taken_map_wrap, taken_outcomes]
    · have hpassed' := Run.passed hN.pos hlegal
      rw [List.filterMap_append, hpassed, ← tickets_append hl.start h2] at hpassed'
      exact List.append_cancel_left hpassed'
  · exact ⟨g.ring, [], by simpa using h.legal, hrel, rfl, h.head_le, Nat.le_refl _, by simp⟩

/-- A step of the ring leaves the watermark and the account alone; what is new is the pending tickets. -/
theorem onRing (h : Sim sh N seed init c tr g) {s : Ring.State Gate} {evs' : List Ring.Event} (c' : State)
    (evs : List Ring.Event) (ps : List Pending)
    (hlegal : Legally N (withHead (unbounded N) N seed) s (ringEvents g.trace ++ evs')) (hrel : Rel N c'.ring s)
    (htk : Ring.taken evs = (Ring.taken evs').map Ring.Event.wrap) (hhead : s.head ≤ g.mark + 2 ^ 30 + 1)
    (hcur : g.ring.cursor ≤ s.cursor) (hdur : c'.durable = c.durable) (hdb : c'.db = c.db)
    (hdev : c'.device = c.device) (hpend : c'.pending = ps.map Pending.wrap)
    (htick : ps.map Pending.ticket = List.range' g.base ps.length)
    (hsaid : ∀ p ∈ ps, Said (g.trace ++ evs'.map .ring) p)
    (hstage : Stage c' { g with ring := s, pending := ps, trace := g.trace ++ evs'.map .ring })
    (hset : (∀ i, c'.phase ≠ .acking i) → ∀ i, c.phase ≠ .acking i) :
    Sim sh N seed init c' (tr ++ evs.map .ring)
      { g with ring := s, pending := ps, trace := g.trace ++ evs'.map .ring } := by
  have hplain : ∀ e ∈ evs'.map Event.ring, Account.Plain e := by
    intro e he
    obtain ⟨x, -, rfl⟩ := List.mem_map.mp he
    trivial
  have hmove : (evs'.map Event.ring).filterMap Event.movedTicket = [] := by
    rw [List.filterMap_map]
    exact List.filterMap_eq_nil_iff.mpr fun _ _ => rfl
  have happ : (evs'.map Event.ring).flatMap Event.applied = [] := by
    rw [List.flatMap_map]
    exact List.flatMap_eq_nil_iff.mpr fun _ _ => rfl
  refine ⟨?_, hrel, ?_, hdur ▸ h.durable, hhead, ?_, ?_, hpend, htick, hsaid, hstage, ?_, ?_⟩
  · rw [ringEvents_append, ringEvents_map_ring]
    exact hlegal
  · rw [List.filter_append, List.filter_append, List.map_append, h.taken, filter_taken_ring, filter_taken_ring, htk,
      List.map_map, List.map_map]
    rfl
  · rw [List.filterMap_append, hmove, List.append_nil]
    exact h.moves
  · intro t ht
    rcases List.mem_append.mp ht with ht | ht
    · exact h.missed t ht
    · simp at ht
  · intro hc x hx
    rw [List.flatMap_append, happ, List.append_nil] at hx
    exact h.settled (hset hc) x hx
  · rw [hdb, hdev]
    exact (h.account.notes hplain).advance hcur

/-- The CAS on the watermark succeeds at its own ticket. -/
theorem advanceDurable_mark (h : Sim sh N seed init c tr g) {t : Nat} (ht : t = g.mark % 2 ^ 31) :
    advanceDurable c t = ({ c with durable := (g.mark + 1) % 2 ^ 31 }, [.moved (g.mark % 2 ^ 31)]) := by
  have hmask : t &&& TICKET_MASK = g.mark % 2 ^ 31 := by rw [mask_eq, ht, Nat.mod_mod]
  have hnext : wrappingAdd (g.mark % 2 ^ 31) 1 &&& TICKET_MASK = (g.mark + 1) % 2 ^ 31 := nextTicket_mod g.mark
  unfold advanceDurable
  simp only [hmask, h.durable, ↓reduceIte, hnext]

/-- What has to be shown of the drainer's own events. -/
theorem own (h : Sim sh N seed init c tr g) (c' : State) (evs : List Event) (ps : List Pending) (base mark : Nat)
    (hev : ∀ e ∈ evs, e.toRing = none ∧ ∀ t, e ≠ .missed t) (hring : c'.ring = c.ring) (hmark : g.mark ≤ mark)
    (hmoved : evs.filterMap Event.movedTicket = List.range' g.mark (mark - g.mark)) (hdur : c'.durable = mark % 2 ^ 31)
    (hpend : c'.pending = ps.map Pending.wrap) (htick : ps.map Pending.ticket = List.range' base ps.length)
    (hsub : ∀ p ∈ ps, p ∈ g.pending) (hstage : Stage c' ⟨g.ring, ps, g.trace ++ evs, base, mark⟩)
    (hset : Settled c' ⟨g.ring, ps, g.trace ++ evs, base, mark⟩)
    (hacc : Account sh init seed base g.ring.cursor (g.trace ++ evs) c'.db c'.device) :
    Sim sh N seed init c' (tr ++ evs.map Event.wrap) ⟨g.ring, ps, g.trace ++ evs, base, mark⟩ := by
  have hle := h.head_le
  have hseed := h.account.seed_le.trans h.mark_le.1
  have htk : ∀ e ∈ evs, e.taken = true ∧ e.wrap.taken = true := by
    intro e he
    have := (hev e he).1
    cases e <;> first | exact ⟨rfl, rfl⟩ | cases this
  refine ⟨?_, hring ▸ h.rel, ?_, hdur, ?_, ?_, ?_, hpend, htick, fun p hp => (h.said p (hsub p hp)).mono _, hstage, hset,
    hacc⟩
  · show Legally N _ g.ring (ringEvents (g.trace ++ evs))
    have hnil : ringEvents evs = [] := List.filterMap_eq_nil_iff.mpr fun e he => (hev e he).1
    rw [ringEvents_append, hnil, List.append_nil]
    exact h.legal
  · show (tr ++ evs.map Event.wrap).filter Event.taken = ((g.trace ++ evs).filter Event.taken).map Event.wrap
    have h1 : evs.filter Event.taken = evs := List.filter_eq_self.mpr fun e he => (htk e he).1
    have h2 : (evs.map Event.wrap).filter Event.taken = evs.map Event.wrap := by
      refine List.filter_eq_self.mpr fun e he => ?_
      obtain ⟨x, hx, rfl⟩ := List.mem_map.mp he
      exact (htk x hx).2
    rw [List.filter_append, List.filter_append, List.map_append, h.taken, h1, h2]
  · show g.ring.head ≤ mark + 2 ^ 30 + 1
    omega
  · show (g.trace ++ evs).filterMap Event.movedTicket = List.range' seed (mark - seed)
    rw [List.filterMap_append, h.moves, hmoved, tickets_append hseed hmark]
  · intro t ht
    rcases List.mem_append.mp ht with ht | ht
    · exact h.missed t ht
    · exact (hev _ ht).2 t rfl

/-- An event that says how a sweep ended, and resolves nothing. -/
def Remark (e : Event) : Prop := e = .completed [] ∨ (∃ x, e = .failed x) ∨ e = .stalled ∨ e = .dropped

/-- A change of the drainer's own fields, with remarks or without. -/
theorem remark (h : Sim sh N seed init c tr g) (c' : State) (evs : List Event) (hring : c'.ring = c.ring)
    (hdur : c'.durable = c.durable) (hpend : c'.pending = c.pending) (hdb : c'.db = c.db) (hdev : c'.device = c.device)
    (hev : ∀ e ∈ evs, Remark e) (hstage : Stage c' { g with trace := g.trace ++ evs })
    (hset : (∀ i, c'.phase ≠ .acking i) → ∀ i, c.phase ≠ .acking i) :
    Sim sh N seed init c' (tr ++ evs) { g with trace := g.trace ++ evs } := by
  have hall : ∀ e ∈ evs, Account.Plain e ∧ e.toRing = none ∧ e.movedTicket = none ∧ (∀ t, e ≠ .missed t) ∧
      e.wrap = e ∧ e.applied = [] := by
    intro e he
    rcases hev e he with rfl | ⟨x, rfl⟩ | rfl | rfl <;> exact ⟨by simp [Account.Plain], rfl, rfl, by simp, rfl, rfl⟩
  have hmove : evs.filterMap Event.movedTicket = [] := List.filterMap_eq_nil_iff.mpr fun e he => (hall e he).2.2.1
  have happ : evs.flatMap Event.applied = [] := List.flatMap_eq_nil_iff.mpr fun e he => (hall e he).2.2.2.2.2
  have hwrap : evs.map Event.wrap = evs :=
    (List.map_congr_left fun e he => (hall e he).2.2.2.2.1).trans (List.map_id _)
  have hsim := h.own c' evs g.pending g.base g.mark
    (fun e he => ⟨(hall e he).2.1, (hall e he).2.2.2.1⟩) hring (Nat.le_refl _) (by simpa using hmove) (hdur ▸ h.durable)
    (hpend ▸ h.pending) h.tickets (fun _ hp => hp) hstage ?_ ?_
  · rwa [hwrap] at hsim
  · intro hc x hx
    rw [List.flatMap_append, happ, List.append_nil] at hx
    exact h.settled (hset hc) x hx
  · rw [hdb, hdev]
    exact h.account.notes fun e he => (hall e he).1

/-- The watermark moves past one ticket. -/
theorem move (h : Sim sh N seed init c tr g) (c' : State) (hring : c'.ring = c.ring)
    (hpend : c'.pending = c.pending) (hdb : c'.db = c.db) (hdev : c'.device = c.device)
    (hdur : c'.durable = (g.mark + 1) % 2 ^ 31)
    (hstage : Stage c' { g with trace := g.trace ++ [.moved g.mark], mark := g.mark + 1 })
    (hset : (∀ i, c'.phase ≠ .acking i) → ∀ i, c.phase ≠ .acking i) :
    Sim sh N seed init c' (tr ++ [.moved (g.mark % 2 ^ 31)])
      { g with trace := g.trace ++ [.moved g.mark], mark := g.mark + 1 } := by
  refine h.own _ [.moved g.mark] _ _ _ (by simp [Event.toRing]) hring (Nat.le_succ _) (by simp [Event.movedTicket]) hdur
    (hpend ▸ h.pending) h.tickets (fun _ hp => hp) hstage ?_ ?_
  · intro hc x hx
    exact h.settled (hset hc) x (by simpa [Event.applied] using hx)
  · rw [hdb, hdev]
    exact h.account.note trivial

/-- A sweep completes with the tickets from `base` up to the cursor resolved and acknowledged. -/
theorem complete (h : Sim sh N seed init c tr g) (c' : State) {l : List (Nat × Resolution)}
    (hl : l.map Prod.fst = List.range' g.base l.length) (hw : ∀ x ∈ l, Warranted g.trace x.1 x.2)
    (hmark : g.mark = g.base + l.length) (hcur : g.ring.cursor = g.base + l.length) (hidle : c.ring.drainer = .idle)
    (hring : c'.ring = c.ring) (hdur : c'.durable = c.durable) (hpend : c'.pending = []) (hdb : c'.db = c.db)
    (hdev : c'.device = c.device) (hphase : c'.phase = .idle) :
    Sim sh N seed init c' (tr ++ [.completed (l.map fun x => (x.1 % 2 ^ 31, x.2))])
      { g with pending := [], trace := g.trace ++ [.completed l], base := g.base + l.length } := by
  have hacc := h.account.complete hl hw
  refine h.own _ [.completed l] _ _ _ (by simp [Event.toRing]) hring (Nat.le_refl _) (by simp [Event.movedTicket])
    (hdur ▸ h.durable) hpend (by simp) (by simp) ?_ ?_ (by rw [hdb, hdev]; exact hacc)
  · unfold Stage
    rw [hphase]
    exact ⟨by rw [hring, hidle], hmark, hcur⟩
  · intro _ x hx
    exact hcur ▸ hacc.below x hx

/-- The `Db::write` of a sweep. -/
theorem write (h : Sim sh N seed init c tr g) (c' : State) {maxWrites nOps : Nat} {batch : WriteBatch sh}
    {o : Outcome Error Nat} {db : Db} {d : Device} (hphase : c.phase = .batching)
    (hb : buildBatch sh maxWrites c.pending .new 0 = .ok (batch, nOps)) (hw : Db.write sh batch c.db c.device = (o, db, d))
    (hring : c'.ring = c.ring) (hdur : c'.durable = c.durable) (hpend : c'.pending = c.pending) (hdb : c'.db = db)
    (hdev : c'.device = d) (hphase' : (∃ base, o = .ok base) ∧ c'.phase = .acking 0 ∨
      (∀ base, o ≠ .ok base) ∧ (c'.phase = .idle ∨ c'.phase = .off)) :
    Sim sh N seed init c' (tr ++ [.wrote (queuedOps c.pending) o])
      { g with trace := g.trace ++ [.wrote (queuedOps g.pending) o] } := by
  obtain ⟨hops, -, hdec⟩ := buildBatch_ok hb
  have hst := h.stage
  unfold Stage at hst
  rw [hphase] at hst
  obtain ⟨hidle, hmark, hcur⟩ := hst
  have hticket : ∀ x ∈ queuedOps g.pending, g.base ≤ x.1 ∧ x.1 < g.base + g.pending.length := by
    intro x hx
    have hm := (queuedOps_sublist g.pending).subset (List.mem_map_of_mem hx)
    rw [h.tickets, List.mem_range'_1] at hm
    exact hm
  have hsettled := h.settled (by simp [hphase])
  have hbatch : batch.ops = (queuedOps g.pending).map Prod.snd := by
    rw [hops, h.pending, queuedOps_wrap, List.map_map]
    rfl
  have hsort : ((queuedOps g.pending).map Prod.fst).Pairwise (· < ·) := by
    refine List.Pairwise.sublist (queuedOps_sublist g.pending) ?_
    rw [h.tickets]
    exact List.pairwise_lt_range'
  have hsaid : ∀ x ∈ queuedOps g.pending, ∃ bytes m, .ring (.drained x.1 bytes) ∈ g.trace ∧ decode bytes = .ok m ∧
      queued m = some x.2 := by
    intro x hx
    obtain ⟨p, hp, h1, h2⟩ := mem_queuedOps.mp hx
    obtain ⟨bytes, m, h3, h4, h5⟩ := Pending.applied_iff h2
    have hsaid := h.said p hp
    unfold Said at hsaid
    rw [h3, h1] at hsaid
    exact ⟨bytes, m, hsaid, h4, h5⟩
  have hacc := h.account.write hbatch hw hsort (fun y hy x hx => (hsettled y hy).trans_le (hticket x hx).1)
    (fun x hx => hcur ▸ (hticket x hx).2) hsaid
  have hwrap : Event.wrote (queuedOps c.pending) o = Event.wrap (.wrote (queuedOps g.pending) o) := by
    rw [h.pending, queuedOps_wrap]
    rfl
  rw [hwrap]
  refine h.own _ [.wrote (queuedOps g.pending) o] _ _ _ (by simp [Event.toRing]) hring (Nat.le_refl _)
    (by simp [Event.movedTicket]) (hdur ▸ h.durable) (hpend ▸ h.pending) h.tickets (fun _ hp => hp) ?_ ?_
    (by rw [hdb, hdev]; exact hacc)
  · unfold Stage
    rcases hphase' with ⟨⟨base, rfl⟩, hp⟩ | ⟨-, hp | hp⟩ <;> rw [hp]
    · refine ⟨by rw [hring, hidle], hmark, Nat.zero_le _, hcur, ?_⟩
      intro p hp
      refine warranted_of_said ((h.said p hp).mono _) ?_ ?_
      · intro bytes hbytes
        exact hdec p.wrap (h.pending ▸ List.mem_map_of_mem hp) bytes hbytes
      · intro op hop
        exact ⟨_, base, List.mem_append_right _ (List.mem_singleton.mpr rfl), mem_queuedOps.mpr ⟨p, hp, rfl, hop⟩⟩
    · exact ⟨by rw [hring, hidle], hmark, hcur⟩
    · exact ⟨by rw [hring, hidle], hmark, hcur⟩
  · intro hnot x hx
    rcases hphase' with ⟨-, hp⟩ | ⟨ho, -⟩
    · exact absurd hp (hnot 0)
    · apply hsettled x
      cases o with
      | ok base => exact absurd rfl (ho base)
      | _ => simpa [Event.applied] using hx

theorem flush (h : Sim sh N seed init c tr g) {o : Outcome Error Unit} {db : Db} {d : Device}
    (hphase : c.phase = .idle) (hf : Db.flush sh c.db c.device = (o, db, d)) (hring : c'.ring = c.ring)
    (hdur : c'.durable = c.durable) (hpend : c'.pending = c.pending) (hdb : c'.db = db) (hdev : c'.device = d)
    (hphase' : c'.phase = .idle ∨ c'.phase = .off) :
    Sim sh N seed init c' (tr ++ [.flushed o]) { g with trace := g.trace ++ [.flushed o] } := by
  have hst := h.stage
  unfold Stage at hst
  rw [hphase] at hst
  obtain ⟨hidle, hmark, hcur⟩ := hst
  refine h.own _ [.flushed o] _ _ _ (by simp [Event.toRing]) hring (Nat.le_refl _) (by simp [Event.movedTicket])
    (hdur ▸ h.durable) (hpend ▸ h.pending) h.tickets (fun _ hp => hp) ?_ ?_ (by rw [hdb, hdev]; exact h.account.flush hf)
  · unfold Stage
    rcases hphase' with hp | hp <;> rw [hp] <;> exact ⟨by rw [hring, hidle], hmark, hcur⟩
  · intro _ x hx
    exact h.settled (by simp [hphase]) x (by simpa [Event.applied] using hx)

/-! ### Whole sweeps -/

/-- The steps of the other parties. -/
theorem foreign (h : Sim sh N seed init c tr g) (hN : SlotCount N) {a : Ring.Action} (ha : a.ofDrainer = false)
    (hok : Assumed N c tr (.ring a)) {r : Ring.State Nat} {evs : List Ring.Event}
    (hs : Ring.step (u32 N) N c.ring a = some (r, evs)) :
    ∃ g', Sim sh N seed init { c with ring := r } (tr ++ evs.map .ring) g' := by
  obtain ⟨s, evs', hlegal, hrel, htk, hhead, hcur, hpass⟩ := h.follow hN hok.1 hok.2.1 hok.2.2 hs
  obtain ⟨hd, -, hothers⟩ := step_others ha hs
  have hcursor := cursor_stays htk (fun e he => passed_others (hothers e he)) hcur hpass
  refine ⟨_, h.onRing { c with ring := r } _ g.pending hlegal hrel htk hhead hcur rfl rfl rfl h.pending
    h.tickets (fun p hp => (h.said p hp).mono _) ?_ (fun hc => hc)⟩
  have hst := h.stage
  unfold Stage at hst ⊢
  dsimp only
  rw [hd, hcursor]
  split at hst
  · exact hst
  · exact hst
  · exact hst
  · exact hst
  · exact hst
  · exact ⟨hst.1, hst.2.1, hst.2.2.1, hst.2.2.2.1, hst.2.2.2.2.1, List.mem_append_left _ hst.2.2.2.2.2⟩
  · exact ⟨hst.1, hst.2.1, hst.2.2.1, hst.2.2.2.1, fun p hp => (hst.2.2.2.2 p hp).mono _⟩

/-- A poll that passes the cursor's ticket: it is the next pending one. -/
theorem pend (h : Sim sh N seed init c tr g) {s : Ring.State Gate} {e : Ring.Event} {evs' : List Ring.Event} {u : Nat}
    (payload : Option Bytes) (hlegal : Legally N (withHead (unbounded N) N seed) s (ringEvents g.trace ++ evs'))
    (hrel : Rel N c'.ring s) (htk : Ring.taken [e] = (Ring.taken evs').map Ring.Event.wrap)
    (hhead : s.head ≤ g.mark + 2 ^ 30 + 1) (hphase : c.phase = .draining) (hphase' : c'.phase = .draining)
    (hu : u = g.ring.cursor) (hcur : s.cursor = g.ring.cursor + 1) (hidle : c'.ring.drainer = .idle)
    (hdur : c'.durable = c.durable) (hdb : c'.db = c.db) (hdev : c'.device = c.device)
    (hpend : c'.pending = c.pending ++ [⟨u % 2 ^ 31, payload⟩])
    (hsaid : Said (evs'.map Event.ring) ⟨u, payload⟩) : ∃ g', Sim sh N seed init c' (tr ++ [.ring e]) g' := by
  have hst := h.stage
  unfold Stage at hst
  rw [hphase] at hst
  obtain ⟨-, hmark, hc⟩ := hst
  refine ⟨_, h.onRing _ [e] (g.pending ++ [⟨u, payload⟩]) hlegal hrel htk hhead (by omega) hdur hdb hdev ?_ ?_
    ?_ ?_ (fun _ => by simp [hphase])⟩
  · rw [hpend, h.pending, List.map_append]
    rfl
  · rw [List.map_append, h.tickets, List.length_append, List.length_singleton, ← List.range'_append_1, ← hc, ← hu]
    rfl
  · intro p hp
    rcases List.mem_append.mp hp with hp | hp
    · exact (h.said p hp).mono _
    · obtain rfl := List.mem_singleton.mp hp
      unfold Said at hsaid ⊢
      cases payload <;> exact List.mem_append_right _ hsaid
  · unfold Stage
    rw [hphase']
    refine ⟨Or.inl hidle, hmark, ?_⟩
    simp only [List.length_append, List.length_singleton]
    omega

theorem polled_others {evs : List Ring.Event} (h : ∀ e ∈ evs, e.ofDrainer = false) (c : State) : polled c evs = c := by
  unfold polled
  split <;> first | rfl | (rename_i e; exact absurd (h _ (List.mem_singleton.mpr rfl)) (by simp [Event.ofDrainer]))

theorem draining (h : Sim sh N seed init c tr g) (hN : SlotCount N) (hnear : NearTickets c) {maxWrites : Nat}
    (hphase : c.phase = .draining) {evs : List Event} (hs : stepSweep sh N maxWrites c = some (c', evs)) :
    ∃ g', Sim sh N seed init c' (tr ++ evs) g' := by
  have hst := h.stage
  unfold Stage at hst
  rw [hphase] at hst
  obtain ⟨hd, hmark, hc⟩ := hst
  simp only [stepSweep, hphase] at hs
  by_cases hidle : c.ring.drainer = .idle
  · rw [if_pos hidle] at hs
    split at hs
    · obtain ⟨⟨r, evs⟩, hr, heq⟩ := Option.map_eq_some_iff.mp hs
      obtain ⟨rfl, rfl⟩ := Prod.mk.inj heq
      obtain ⟨s, evs', hlegal, hrel, htk, hhead, hcur, hpass⟩ := h.follow hN hnear (a := .poll) trivial trivial hr
      have hpoll : r.drainer.polls = true ∧ evs = [] := by
        simp only [Ring.step, hidle, ↓reduceIte, Option.some.injEq, Prod.mk.injEq] at hr
        obtain ⟨rfl, rfl⟩ := hr
        exact ⟨rfl, rfl⟩
      obtain ⟨hpoll, rfl⟩ := hpoll
      have hcursor := cursor_stays htk (by simp) hcur hpass
      refine ⟨_, h.onRing { c with ring := r, phase := .draining } [] g.pending hlegal hrel htk
        hhead hcur rfl rfl rfl h.pending h.tickets (fun p hp => (h.said p hp).mono _) ?_ (fun _ => by simp [hphase])⟩
      exact ⟨Or.inr hpoll, hmark, hcursor.trans hc⟩
    · cases hs
      refine ⟨_, h.remark { c with phase := .batching } [] rfl rfl rfl rfl rfl (by simp) ?_
        (fun _ => by simp [hphase])⟩
      exact ⟨hidle, hmark, hc⟩
  · rw [if_neg hidle] at hs
    have hpolls := hd.resolve_left hidle
    obtain ⟨⟨r, evs⟩, hr, heq⟩ := Option.map_eq_some_iff.mp hs
    obtain ⟨rfl, rfl⟩ := Prod.mk.inj heq
    obtain ⟨s, evs', hlegal, hrel, htk, hhead, hcur, hpass⟩ := h.follow hN hnear (a := .drainer) trivial trivial hr
    rcases stepDrainer_polls hpolls hr with ⟨hgo, hothers⟩ | ⟨hend, ⟨t, bytes, rfl⟩ | ⟨t, rfl⟩ | ⟨t, rfl⟩⟩
    · have hcursor := cursor_stays htk (fun e he => passed_others (hothers e he)) hcur hpass
      rw [polled_others hothers]
      refine ⟨_, h.onRing { c with ring := r } _ g.pending hlegal hrel htk hhead hcur rfl rfl rfl h.pending
        h.tickets (fun p hp => (h.said p hp).mono _) ?_ (fun hc => hc)⟩
      unfold Stage
      dsimp only
      rw [hphase]
      exact ⟨Or.inr hgo, hmark, hcursor.trans hc⟩
    · obtain ⟨e', he', hw, hpt, hc'⟩ := passes_cursor (s := g.ring) (e := .drained t bytes) htk rfl hpass
      cases e' with
      | drained u b =>
        simp only [Ring.Event.wrap, Ring.Event.drained.injEq] at hw
        obtain ⟨rfl, rfl⟩ := hw
        refine h.pend (some b) hlegal hrel htk hhead hphase hphase (Option.some.inj hpt) hc' hend rfl rfl rfl
          rfl ?_
        exact List.mem_map_of_mem he'
      | _ => simp [Ring.Event.wrap] at hw
    · obtain ⟨e', he', hw, hpt, hc'⟩ := passes_cursor (s := g.ring) (e := .skipped t) htk rfl hpass
      cases e' with
      | skipped u =>
        simp only [Ring.Event.wrap, Ring.Event.skipped.injEq] at hw
        subst hw
        refine h.pend none hlegal hrel htk hhead hphase hphase (Option.some.inj hpt) hc' hend rfl rfl rfl
          rfl ?_
        exact List.mem_map_of_mem he'
      | _ => simp [Ring.Event.wrap] at hw
    · have hcursor := cursor_stays htk (by simp [Event.passedTicket]) hcur hpass
      refine ⟨_, h.onRing { c with ring := r, phase := .batching } _ g.pending hlegal hrel htk hhead hcur
        rfl rfl rfl h.pending h.tickets (fun p hp => (h.said p hp).mono _) ?_ (fun _ => by simp [hphase])⟩
      exact ⟨hend, hmark, hcursor.trans hc⟩

theorem fencing (h : Sim sh N seed init c tr g) (hN : SlotCount N) (hnear : NearTickets c) {maxWrites : Nat}
    (hphase : c.phase = .fencing) {evs : List Event} (hs : stepSweep sh N maxWrites c = some (c', evs)) :
    ∃ g', Sim sh N seed init c' (tr ++ evs) g' := by
  have hst := h.stage
  unfold Stage at hst
  rw [hphase] at hst
  obtain ⟨hfences, hmark, hc, hp⟩ := hst
  simp only [stepSweep, hphase] at hs
  obtain ⟨⟨r, evs⟩, hr, heq⟩ := Option.map_eq_some_iff.mp hs
  obtain ⟨rfl, rfl⟩ := Prod.mk.inj heq
  obtain ⟨s, evs', hlegal, hrel, htk, hhead, hcur, hpass⟩ := h.follow hN hnear (a := .drainer) trivial trivial hr
  have hpend : c.pending = [] := by rw [h.pending, hp]; rfl
  rcases stepDrainer_fences hfences hr with ⟨hgo, rfl⟩ | ⟨hend, ⟨t, rfl⟩ | ⟨t, rfl⟩⟩
  · have hcursor := cursor_stays htk (by simp) hcur hpass
    refine ⟨_, h.onRing { c with ring := r } [] g.pending hlegal hrel htk hhead hcur rfl rfl rfl
      h.pending h.tickets (fun p hp => (h.said p hp).mono _) ?_ (fun hc => hc)⟩
    unfold Stage
    dsimp only
    rw [hphase]
    exact ⟨hgo, hmark, hcursor.trans hc, hp⟩
  · obtain ⟨e', he', hw, hpt, hc'⟩ := passes_cursor (s := g.ring) (e := .fencedCursor t) htk rfl hpass
    cases e' with
    | fencedCursor u =>
      simp only [Ring.Event.wrap, Ring.Event.fencedCursor.injEq] at hw
      subst hw
      obtain rfl : u = g.base := (Option.some.inj hpt).trans hc
      refine ⟨_, h.onRing { c with ring := r, phase := .fenceAck (g.base % 2 ^ 31) } _ g.pending hlegal hrel
        htk hhead hcur rfl rfl rfl h.pending h.tickets (fun p hp => (h.said p hp).mono _) ?_ (fun _ => by simp [hphase])⟩
      refine ⟨hend, hmark, ?_, hp, rfl, List.mem_append_right _ (List.mem_map_of_mem he')⟩
      show s.cursor = g.base + 1
      omega
    | _ => simp [Ring.Event.wrap] at hw
  · have hcursor := cursor_stays htk (by simp [Event.passedTicket]) hcur hpass
    have h1 := h.onRing { c with ring := r, phase := .idle } [.notFenced t] g.pending hlegal hrel
      htk hhead hcur rfl rfl rfl h.pending h.tickets (fun p hp => (h.said p hp).mono _)
      ⟨hend, hmark, (hcursor.trans hc).trans (by simp [hp])⟩ (fun _ => by simp [hphase])
    have h2 := h1.remark { c with ring := r, phase := .idle } [.completed []] rfl rfl rfl rfl rfl
      (by simp [Remark]) ⟨hend, hmark, (hcursor.trans hc).trans (by simp [hp])⟩ id
    rw [List.append_assoc] at h2
    exact ⟨_, h2⟩

/-- The flush phase, in each of the ways it can end. -/
theorem writing (h : Sim sh N seed init c tr g) {maxWrites nOps : Nat} {batch : WriteBatch sh}
    (hphase : c.phase = .batching) (hb : buildBatch sh maxWrites c.pending .new 0 = .ok (batch, nOps)) (hn : nOps ≠ 0)
    {evs : List Event} (hs : writeBatch sh c batch nOps = (c', evs)) : ∃ g', Sim sh N seed init c' (tr ++ evs) g' := by
  obtain ⟨hops, hlen, -⟩ := buildBatch_ok hb
  have hst := h.stage
  unfold Stage at hst
  rw [hphase] at hst
  obtain ⟨hidle, hmark, hcur⟩ := hst
  have hnops : batch.ops.length = nOps := by rw [hops, hlen]; simp [WriteBatch.new]
  unfold writeBatch at hs
  rcases hw : Db.write sh batch c.db c.device with ⟨o, db, d⟩
  rw [hw] at hs
  -- a sweep that ends here returns to the phase with nothing under way, with one more remark
  have hend : ∀ (c' : State) (e : Event), (∀ base, o ≠ .ok base) → Remark e → c'.ring = c.ring → c'.durable = c.durable →
      c'.pending = c.pending → c'.db = db → c'.device = d → c'.phase = .idle →
      ∃ g', Sim sh N seed init c' (tr ++ [.wrote (queuedOps c.pending) o, e]) g' := by
    intro c' e ho he h1 h2 h3 h4 h5 h6
    have hsim := h.write c' hphase hb hw h1 h2 h3 h4 h5 (Or.inr ⟨ho, Or.inl h6⟩)
    have hsim' := hsim.remark c' [e] rfl rfl rfl rfl rfl (by simpa using he) (by
      unfold Stage
      rw [h6]
      exact ⟨by rw [h1, hidle], hmark, hcur⟩) id
    rw [List.append_assoc] at hsim'
    exact ⟨_, hsim'⟩
  cases o with
  | ok base =>
    have hle := write_ok hw (by rw [← List.length_pos_iff]; omega)
    rw [hnops] at hle
    have hfits : ¬ (nOps > U64_MAX ∨ base + (nOps - 1) > U64_MAX) := by omega
    simp only [hfits, ↓reduceIte, Prod.mk.injEq] at hs
    obtain ⟨rfl, rfl⟩ := hs
    exact ⟨_, h.write _ hphase hb hw rfl rfl rfl rfl rfl (Or.inl ⟨⟨base, rfl⟩, rfl⟩)⟩
  | cut =>
    obtain ⟨rfl, rfl⟩ := Prod.mk.inj hs
    exact ⟨_, h.write _ hphase hb hw rfl rfl rfl rfl rfl (Or.inr ⟨by simp, Or.inr rfl⟩)⟩
  | dropped =>
    obtain ⟨rfl, rfl⟩ := Prod.mk.inj hs
    exact hend _ _ (by simp) (by simp [Remark]) rfl rfl rfl rfl rfl rfl
  | err e =>
    dsimp only at hs
    split at hs
    · cases ‹Outcome.err e = Outcome.ok _›
    · obtain ⟨rfl, rfl⟩ := Prod.mk.inj hs
      exact hend _ _ (by simp) (by simp [Remark]) rfl rfl rfl rfl rfl rfl
    · obtain ⟨rfl, rfl⟩ := Prod.mk.inj hs
      exact hend _ _ (by simp) (by simp [Remark]) rfl rfl rfl rfl rfl rfl
    · obtain ⟨rfl, rfl⟩ := Prod.mk.inj hs
      exact hend _ _ (by simp) (by simp [Remark]) rfl rfl rfl rfl rfl rfl
    · cases ‹Outcome.err e = Outcome.cut›
    · cases ‹Outcome.err e = Outcome.dropped›

theorem batching (h : Sim sh N seed init c tr g) (hN : SlotCount N) (hnear : NearTickets c) {maxWrites : Nat}
    (hphase : c.phase = .batching) {evs : List Event} (hs : stepSweep sh N maxWrites c = some (c', evs)) :
    ∃ g', Sim sh N seed init c' (tr ++ evs) g' := by
  have hst := h.stage
  unfold Stage at hst
  rw [hphase] at hst
  obtain ⟨hidle, hmark, hc⟩ := hst
  simp only [stepSweep, hphase] at hs
  by_cases hpend : c.pending = []
  · have hp : g.pending = [] := by
      rw [h.pending] at hpend
      exact List.map_eq_nil_iff.mp hpend
    have hc' : g.ring.cursor = g.base := by rw [hc, hp]; rfl
    rw [if_pos hpend] at hs
    unfold stallPoll at hs
    dsimp only at hs
    split at hs
    · obtain ⟨⟨r, evs⟩, hr, heq⟩ := Option.map_eq_some_iff.mp hs
      obtain ⟨rfl, rfl⟩ := Prod.mk.inj heq
      obtain ⟨s, evs', hlegal, hrel, htk, hhead, hcur, hpass⟩ := h.follow hN hnear (a := .fence) trivial trivial hr
      obtain ⟨hfence, rfl⟩ : r.drainer.fences = true ∧ evs = [] := by
        simp only [Ring.step, hidle, ↓reduceIte, Option.some.injEq, Prod.mk.injEq] at hr
        obtain ⟨rfl, rfl⟩ := hr
        exact ⟨rfl, rfl⟩
      have hcursor := cursor_stays htk (by simp) hcur hpass
      exact ⟨_, h.onRing { c with ring := r, stallPolls := 0, phase := .fencing } [] g.pending
        hlegal hrel htk hhead hcur rfl rfl rfl h.pending h.tickets (fun p hp => (h.said p hp).mono _)
        ⟨hfence, hmark, hcursor.trans hc', hp⟩ (fun _ => by simp [hphase])⟩
    · obtain ⟨rfl, rfl⟩ := Prod.mk.inj (Option.some.inj hs)
      exact ⟨_, h.remark { c with stallPolls := (c.stallPolls + 1) % 2 ^ 32, phase := .idle } [.completed []]
        rfl rfl rfl rfl rfl (by simp [Remark]) ⟨hidle, hmark, hc⟩
        (fun _ => by simp [hphase])⟩
  · rw [if_neg hpend] at hs
    cases hb : buildBatch sh maxWrites c.pending .new 0 with
    | error e =>
      rw [hb] at hs
      obtain ⟨rfl, rfl⟩ := Prod.mk.inj (Option.some.inj hs)
      exact ⟨_, h.remark { c with poisoned := true, phase := .idle } [.failed e] rfl rfl rfl rfl rfl
        (by simp [Remark]) ⟨hidle, hmark, hc⟩ (fun _ => by simp [hphase])⟩
    | ok x =>
      obtain ⟨batch, nOps⟩ := x
      rw [hb] at hs
      dsimp only at hs
      split at hs
      · rename_i h0
        obtain ⟨rfl, rfl⟩ := Prod.mk.inj (Option.some.inj hs)
        obtain ⟨-, hlen, hdec⟩ := buildBatch_ok hb
        refine ⟨_, h.remark { c with phase := .acking 0 } [] rfl rfl rfl rfl rfl (by simp) ?_
          (fun hx => absurd rfl (hx 0))⟩
        refine ⟨hidle, hmark, Nat.zero_le _, hc, fun p hp => ?_⟩
        refine warranted_of_said ((h.said p hp).mono _) ?_ ?_
        · intro bytes hbytes
          exact hdec p.wrap (h.pending ▸ List.mem_map_of_mem hp) bytes hbytes
        · intro op hop
          have hmem : (p.wrap.ticket, op) ∈ queuedOps c.pending :=
            mem_queuedOps.mpr ⟨p.wrap, h.pending ▸ List.mem_map_of_mem hp, rfl, hop⟩
          have hpos := List.length_pos_of_mem hmem
          omega
      · rename_i hn
        exact h.writing hphase hb hn (Option.some.inj hs)

theorem fenceAck (h : Sim sh N seed init c tr g) {t maxWrites : Nat} (hphase : c.phase = .fenceAck t)
    {evs : List Event} (hs : stepSweep sh N maxWrites c = some (c', evs)) :
    ∃ g', Sim sh N seed init c' (tr ++ evs) g' := by
  have hst := h.stage
  unfold Stage at hst
  rw [hphase] at hst
  obtain ⟨hidle, hmark, hc, hp, rfl, hfenced⟩ := hst
  have hadv := h.advanceDurable_mark (t := g.base % 2 ^ 31) (by rw [hmark])
  simp only [stepSweep, hphase, hadv, Option.some.injEq, Prod.mk.injEq] at hs
  obtain ⟨rfl, rfl⟩ := hs
  have hpend : c.pending = [] := by rw [h.pending, hp]; rfl
  have hacc := (h.account.note (e := .moved g.mark) trivial).complete (l := [(g.base, .dead)]) rfl (by
    intro x hx
    obtain rfl := List.mem_singleton.mp hx
    exact Or.inr (List.mem_append_left _ hfenced))
  rw [List.append_assoc] at hacc
  have hsim := h.own { c with durable := (g.mark + 1) % 2 ^ 31, phase := .idle }
    [.moved g.mark, .completed [(g.base, .dead)]] [] (g.base + 1) (g.mark + 1)
    (by simp [Event.toRing]) rfl (Nat.le_succ _) (by simp [Event.movedTicket]) rfl hpend rfl (by simp)
    ⟨hidle, by show g.mark + 1 = g.base + 1; rw [hmark], hc⟩ (fun _ x hx => hc ▸ hacc.below x hx) hacc
  exact ⟨_, hsim⟩

theorem acking (h : Sim sh N seed init c tr g) {i maxWrites : Nat} (hphase : c.phase = .acking i)
    {evs : List Event} (hs : stepSweep sh N maxWrites c = some (c', evs)) :
    ∃ g', Sim sh N seed init c' (tr ++ evs) g' := by
  have hst := h.stage
  unfold Stage at hst
  rw [hphase] at hst
  obtain ⟨hidle, hmark, hi, hc, hw⟩ := hst
  simp only [stepSweep, hphase] at hs
  have hget : c.pending[i]? = (g.pending[i]?).map Pending.wrap := by rw [h.pending, List.getElem?_map]
  cases hp : g.pending[i]? with
  | some p =>
    have hti : p.ticket = g.base + i := by
      have h1 := congrArg (·[i]?) h.tickets
      obtain ⟨hlt, -⟩ := List.getElem?_eq_some_iff.mp hp
      simp only [List.getElem?_map, hp, Option.map_some, List.getElem?_range' hlt, Option.some.injEq] at h1
      omega
    have hadv := h.advanceDurable_mark (t := p.wrap.ticket) (by rw [hmark, ← hti]; rfl)
    rw [hp] at hget
    simp only [hget, Option.map_some, hadv, Option.some.injEq, Prod.mk.injEq] at hs
    obtain ⟨rfl, rfl⟩ := hs
    obtain ⟨hlt, -⟩ := List.getElem?_eq_some_iff.mp hp
    refine ⟨_, h.move { c with durable := (g.mark + 1) % 2 ^ 31, phase := .acking (i + 1) } rfl rfl rfl rfl rfl ?_
      (fun hx => absurd rfl (hx (i + 1)))⟩
    exact ⟨hidle, by show g.mark + 1 = g.base + (i + 1); omega, hlt, hc, fun p hp => (hw p hp).mono _⟩
  | none =>
    rw [hp] at hget
    simp only [hget, Option.map_none, Option.some.injEq, Prod.mk.injEq] at hs
    obtain ⟨rfl, rfl⟩ := hs
    have hlen : g.pending.length = i := by
      have := List.getElem?_eq_none_iff.mp hp
      omega
    have hcomp := h.complete { c with pending := [], phase := .idle }
      (l := g.pending.map fun p => (p.ticket, p.resolution)) ?_ ?_ ?_ ?_ hidle rfl rfl rfl rfl rfl rfl
    · have hwrap : (g.pending.map fun p => (p.ticket, p.resolution)).map (fun x => (x.1 % 2 ^ 31, x.2)) =
          c.pending.map fun p => (p.ticket, p.resolution) := by
        rw [h.pending, List.map_map, List.map_map]
        rfl
      rw [hwrap] at hcomp
      exact ⟨_, hcomp⟩
    · rw [List.map_map, List.length_map]
      exact h.tickets
    · intro x hx
      obtain ⟨p, hp, rfl⟩ := List.mem_map.mp hx
      exact hw p hp
    · rw [List.length_map, hmark, hlen]
    · rw [List.length_map, hc]

theorem step (h : Sim sh N seed init c tr g) (hN : SlotCount N) {maxWrites : Nat} {a : Action} (ha : Assumed N c tr a)
    {evs : List Event} (hs : step sh N maxWrites c a = some (c', evs)) : ∃ g', Sim sh N seed init c' (tr ++ evs) g' := by
  cases a with
  | ring a =>
    simp only [Drainer.step] at hs
    split at hs
    · cases hs
    · rename_i hd
      obtain ⟨⟨r, evs⟩, hr, heq⟩ := Option.map_eq_some_iff.mp hs
      obtain ⟨rfl, rfl⟩ := Prod.mk.inj heq
      exact h.foreign hN (Bool.eq_false_of_not_eq_true hd) ha hr
  | sweep =>
    simp only [Drainer.step] at hs
    split at hs
    · cases hs
    · rename_i hphase
      have hphase := not_not.mp hphase
      have hst := h.stage
      unfold Stage at hst
      rw [hphase] at hst
      obtain ⟨hidle, hmark, hc⟩ := hst
      split at hs
      · obtain ⟨rfl, rfl⟩ := Prod.mk.inj (Option.some.inj hs)
        refine ⟨_, h.remark c [.completed []] rfl rfl rfl rfl rfl (by simp [Remark]) ?_ id⟩
        unfold Stage
        rw [hphase]
        exact ⟨hidle, hmark, hc⟩
      · obtain ⟨rfl, rfl⟩ := Prod.mk.inj (Option.some.inj hs)
        refine ⟨_, h.remark { c with phase := if c.pending = [] then .draining else .batching } [] rfl rfl
          rfl rfl rfl (by simp) ?_ (fun _ => by simp [hphase])⟩
        by_cases hp : c.pending = []
        · rw [if_pos hp]
          exact ⟨Or.inl hidle, hmark, hc⟩
        · rw [if_neg hp]
          exact ⟨hidle, hmark, hc⟩
  | drainer =>
    cases hphase : c.phase with
    | idle => simp [Drainer.step, stepSweep, hphase] at hs
    | off => simp [Drainer.step, stepSweep, hphase] at hs
    | draining => exact h.draining hN ha hphase hs
    | batching => exact h.batching hN ha hphase hs
    | fencing => exact h.fencing hN ha hphase hs
    | fenceAck t => exact h.fenceAck hphase hs
    | acking i => exact h.acking hphase hs
  | flush =>
    simp only [Drainer.step] at hs
    split at hs
    · cases hs
    · rename_i hphase
      rcases hf : Db.flush sh c.db c.device with ⟨o, db, d⟩
      rw [hf] at hs
      obtain ⟨rfl, rfl⟩ := Prod.mk.inj (Option.some.inj hs)
      refine ⟨_, h.flush (not_not.mp hphase) hf rfl rfl rfl rfl rfl ?_⟩
      dsimp only
      split
      · exact Or.inr rfl
      · exact Or.inl rfl
  | setStallBudget budget =>
    simp only [Drainer.step] at hs
    split at hs
    · cases hs
    · rename_i hphase
      have hphase := not_not.mp hphase
      have hst := h.stage
      unfold Stage at hst
      rw [hphase] at hst
      obtain ⟨rfl, rfl⟩ := Prod.mk.inj (Option.some.inj hs)
      refine ⟨_, h.remark { c with stallBudget := budget } [] rfl rfl rfl rfl rfl (by simp) ?_ id⟩
      unfold Stage
      dsimp only
      rw [hphase]
      exact hst

end Sim

/-- A fresh drainer and its counterpart. -/
theorem sim_new {sh : Shape} {N seed : Nat} (hN : SlotCount N) (db : Db) (d : Device) :
    Sim sh N (seed % 2 ^ 31) (new N seed db d) (new N seed db d) []
      ⟨withHead (unbounded N) N (seed % 2 ^ 31), [], [], seed % 2 ^ 31, seed % 2 ^ 31⟩ := by
  have hrel := rel_withHead hN (seed % 2 ^ 31)
  refine ⟨Ring.Run.start, ?_, rfl, ?_, ?_, by simp, by simp, rfl, rfl, by simp, ?_, ?_, ?_⟩
  · show Rel N (newSeeded (u32 N) N seed) _
    rw [newSeeded, mask_eq]
    rwa [Nat.mod_mod] at hrel
  · show seed &&& TICKET_MASK = seed % 2 ^ 31 % 2 ^ 31
    rw [mask_eq, Nat.mod_mod]
  · show seed % 2 ^ 31 ≤ seed % 2 ^ 31 + 2 ^ 30 + 1
    omega
  · exact ⟨rfl, rfl, rfl⟩
  · intro _ x hx
    simp at hx
  · exact ⟨Nat.le_refl _, by simp, by simp, by simp, by simp, by simp, DbCalls.start⟩

theorem Run.sim {sh : Shape} {N seed maxWrites : Nat} (hN : SlotCount N) {db : Db} {d : Device} {c : State}
    {tr : List Event} (hr : Run sh N maxWrites (new N seed db d) c tr) :
    ∃ g, Sim sh N (seed % 2 ^ 31) (new N seed db d) c tr g := by
  induction hr with
  | start => exact ⟨_, sim_new hN db d⟩
  | step _ ha hs ih =>
    obtain ⟨g, h⟩ := ih
    exact h.step hN ha hs

end Horton.Drainer
