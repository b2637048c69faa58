import Mathlib.Data.List.Pairwise
import Horton.Drainer.Sweep

/-!
# The watermark

What `durable` promises to the writers, in every run of the drainer.
-/

namespace Horton.Drainer

open BlockDev Horton.Ring

/-! ### The promise of the watermark -/

/-- The cursor passes a ticket in one way only. -/
theorem passed_once {N seed : Nat} (hN : 0 < N) {s : Ring.State Gate} {tr : List Ring.Event}
    (hr : Legally N (withHead (unbounded N) N seed) s tr) {e e' : Ring.Event} {t : Nat} (he : e ∈ tr) (he' : e' ∈ tr)
    (ht : e.passedTicket = some t) (ht' : e'.passedTicket = some t) : e = e' := by
  have hp : (tr.filterMap Event.passedTicket).Nodup := by
    rw [Run.passed hN hr]
    exact List.nodup_range'
  by_contra hne
  have hpair := List.pairwise_filterMap.mp hp
  have hsymm : Std.Symm fun a a' : Ring.Event => ∀ b, a.passedTicket = some b → ∀ b', a'.passedTicket = some b' → b ≠ b' :=
    ⟨fun a a' h b hb b' hb' => (h b' hb' b hb).symm⟩
  exact hpair.forall he he' hne t ht t ht' rfl

theorem mem_ringEvents {tr : List Event} {e : Ring.Event} : e ∈ ringEvents tr ↔ .ring e ∈ tr := by
  unfold ringEvents
  rw [List.mem_filterMap]
  constructor
  · rintro ⟨x, hx, heq⟩
    cases x with
    | ring x =>
      cases heq
      exact hx
    | _ => cases heq
  · exact fun h => ⟨_, h, rfl⟩

namespace Sim

variable {sh : Shape} {N seed : Nat} {init c : State} {tr : List Event} {g : Ghost}

/-- Every ticket behind the watermark is resolved. -/
theorem resolved_below (h : Sim sh N seed init c tr g) {t : Nat} (h1 : seed ≤ t) (h2 : t < g.mark) :
    ∃ r, Warranted g.trace t r := by
  by_cases hb : t < g.base
  · have hm : t ∈ (g.trace.flatMap Event.resolved).map Prod.fst := by
      rw [h.account.done, List.mem_range'_1]
      omega
    obtain ⟨x, hx, rfl⟩ := List.mem_map.mp hm
    exact ⟨x.2, h.account.warranted x hx⟩
  · have hst := h.stage
    unfold Stage at hst
    split at hst
    case h_7 i hp =>
      obtain ⟨-, hmark, hi, -, hw⟩ := hst
      have hm : t ∈ g.pending.map Pending.ticket := by
        rw [h.tickets, List.mem_range'_1]
        omega
      obtain ⟨p, hp, rfl⟩ := List.mem_map.mp hm
      exact ⟨_, hw p hp⟩
    all_goals omega

theorem lt_of_durable (h : Sim sh N seed init c tr g) (hN : SlotCount N) (hnear : NearTickets c) {t : Nat}
    (ht : t < g.ring.head) (hd : isTicketDurable c.durable (t % 2 ^ 31) = true) : t < g.mark := by
  have hhead := h.head_near hN hnear
  unfold isTicketDurable at hd
  simp only [mask_eq, h.durable, wrappingSub, Bool.and_eq_true, bne_iff_ne, ne_eq, decide_eq_true_eq] at hd
  omega

end Sim

/-- What a run of the drainer promises, over tickets counted without wrapping from `seed`: its trace is `tr`, the
watermark stands at `mark`. -/
structure Watermark (seed mark : Nat) (c : State) (tr : List Event) : Prop where
  /-- Every move of the watermark is past one ticket, from where the last one left it. -/
  moves : tr.filterMap Event.movedTicket = List.range' seed (mark - seed)
  /-- After a sweep, the tickets resolved by completed sweeps are those behind the watermark. -/
  acknowledged : c.phase = .idle → ∀ t, (∃ r, (t, r) ∈ tr.flatMap Event.resolved) ↔ seed ≤ t ∧ t < mark
  resolved : ∀ t r, (t, r) ∈ tr.flatMap Event.resolved → Warranted tr t r
  /-- A published ticket that the watermark has passed was applied, unless there was nothing to apply. -/
  durable : NearTickets c → ∀ p t payload, .ring (.published p t payload) ∈ tr →
    isTicketDurable c.durable (t % 2 ^ 31) = true → ∃ m, decode payload.1 = .ok m ∧
      ((∃ op, queued m = some op ∧ Warranted tr t (.applied op)) ∨ ∃ start stop, m = .rangeDelete start stop ∧ stop ≤ start)
  applied_in_order : ((tr.flatMap Event.applied).map Prod.fst).Pairwise (· < ·)
  /-- Whatever `Db::write` was given, by a call that succeeded or not, came from a published ticket. -/
  only_published : ∀ ops o, .wrote ops o ∈ tr → ∀ x ∈ ops,
    (∃ p payload m, .ring (.published p x.1 payload) ∈ tr ∧ decode payload.1 = .ok m ∧ queued m = some x.2) ∧
      .ring (.skipped x.1) ∉ tr ∧ .ring (.fencedCursor x.1) ∉ tr ∧ ∀ q, .ring (.fenced q x.1) ∉ tr

theorem queued_none {m : Mutation} (h : queued m = none) : ∃ start stop, m = .rangeDelete start stop ∧ stop ≤ start := by
  cases m with
  | rangeDelete start stop =>
    refine ⟨start, stop, rfl, ?_⟩
    simp only [queued] at h
    split at h
    · cases h
    · rename_i hlt
      exact not_lt.mp hlt
  | _ => simp [queued] at h

theorem Sim.watermark {sh : Shape} {N seed : Nat} {init c : State} {tr : List Event} {g : Ghost}
    (h : Sim sh N seed init c tr g) (hN : SlotCount N) : Watermark seed g.mark c g.trace := by
  obtain ⟨hi, hl⟩ := h.safe hN
  have hex := hl.exact hi hN.pos
  have hle := h.mark_le
  refine ⟨h.moves, ?_, fun t r hr => h.account.warranted (t, r) hr, ?_, h.account.order, ?_⟩
  · intro hphase t
    have hst := h.stage
    unfold Stage at hst
    rw [hphase] at hst
    have hiff : (∃ r, (t, r) ∈ g.trace.flatMap Event.resolved) ↔ t ∈ (g.trace.flatMap Event.resolved).map Prod.fst := by
      simp
    have := h.account.seed_le
    rw [hiff, h.account.done, List.mem_range'_1, hst.2.1]
    omega
  · intro hnear p t payload hp hd
    have hp' := mem_ringEvents.mpr hp
    obtain ⟨hhead, hclaimed, -⟩ := hl.published p t payload hp'
    have hlt := h.lt_of_durable hN hnear hhead hd
    have hdrained := hex.published_drained p t payload hp' (by omega)
    obtain ⟨-, -, hsame⟩ := hl.drained t payload.1 hdrained
    obtain ⟨r, hr⟩ := h.resolved_below (hl.claimed_lt hclaimed).1 hlt
    cases r with
    | applied op =>
      obtain ⟨ops, base, hw, hmem⟩ := hr
      obtain ⟨bytes, m, hb, hm, hq⟩ := h.account.called ops _ hw _ hmem
      obtain rfl := (hl.drained t bytes (mem_ringEvents.mpr hb)).2.2 p payload hp'
      exact ⟨m, hm, Or.inl ⟨op, hq, ops, base, hw, hmem⟩⟩
    | noop =>
      obtain ⟨bytes, m, hb, hm, hq⟩ := hr
      obtain rfl := (hl.drained t bytes (mem_ringEvents.mpr hb)).2.2 p payload hp'
      exact ⟨m, hm, Or.inr (queued_none hq)⟩
    | dead =>
      rcases hr with hr | hr <;>
        cases passed_once hN.pos h.legal hdrained (mem_ringEvents.mpr hr) rfl rfl
  · intro ops o hw x hx
    obtain ⟨bytes, m, hb, hm, hq⟩ := h.account.called ops o hw x hx
    have hb' := mem_ringEvents.mpr hb
    obtain ⟨p, payload, -, hp, rfl⟩ := hex.drained_published _ _ hb'
    refine ⟨⟨p, payload, m, mem_ringEvents.mp hp, hm, hq⟩, ?_, ?_, ?_⟩
    · intro hs
      cases passed_once hN.pos h.legal hb' (mem_ringEvents.mpr hs) rfl rfl
    · intro hs
      cases passed_once hN.pos h.legal hb' (mem_ringEvents.mpr hs) rfl rfl
    · intro q hf
      exact hex.fenced_not_drained q _ _ (mem_ringEvents.mpr hf) hb'

/-! ### Runs that can be executed -/

instance (s : State) : Decidable (NearTickets s) := inferInstanceAs (Decidable (_ ≤ _))

/-- The assumptions on a step, checked; force-releases are left out. -/
def Assumed.check (N : Nat) (s : State) : Action → Bool
  | .ring (.forceRelease _ _) => false
  | .ring (.writer p) =>
    decide (NearTickets s) && match s.ring.writers p with
      | .gateMatched t => decide (s.ring.head = t → s.ring.gate (t % N) = t)
      | _ => true
  | _ => decide (NearTickets s)

theorem Assumed.of_check {N : Nat} {s : State} {tr : List Event} {a : Action} (h : Assumed.check N s a = true) :
    Assumed N s tr a := by
  cases a with
  | ring a =>
    cases a with
    | forceRelease k t => cases h
    | writer p =>
      simp only [Assumed.check, Bool.and_eq_true, decide_eq_true_eq] at h
      refine ⟨h.1, ?_, trivial⟩
      intro t ht hh
      have h2 := h.2
      rw [ht] at h2
      exact of_decide_eq_true h2 hh
    | _ => exact ⟨of_decide_eq_true h, trivial, trivial⟩
  | _ => exact of_decide_eq_true (p := NearTickets s) h

/-- Executes a schedule. -/
def exec (sh : Shape) (N maxWrites : Nat) : List Action → State → List Event → Option (State × List Event)
  | [], s, tr => some (s, tr)
  | a :: as, s, tr =>
    if Assumed.check N s a then (step sh N maxWrites s a).bind fun r => exec sh N maxWrites as r.1 (tr ++ r.2) else none

theorem Run.exec {sh : Shape} {N maxWrites : Nat} {init s c : State} {tr evs : List Event} {as : List Action}
    (hr : Run sh N maxWrites init s tr) (h : exec sh N maxWrites as s tr = some (c, evs)) :
    Run sh N maxWrites init c evs := by
  induction as generalizing s tr with
  | nil =>
    cases h
    exact hr
  | cons a as ih =>
    simp only [Drainer.exec] at h
    split at h
    · rename_i ha
      obtain ⟨⟨s', evs'⟩, hs, h'⟩ := Option.bind_eq_some_iff.mp h
      exact ih (hr.step (Assumed.of_check ha) hs) h'
    · cases h

/-- One writer publishes `payload` as the first ticket, then one sweep drains it. -/
def publishAndSweep (payload : Payload) : List Action :=
  [.ring (.claim 0), .ring (.writer 0), .ring (.writer 0), .ring (.publish 0 payload)] ++
    List.replicate 9 (.ring (.writer 0)) ++ [.sweep] ++ List.replicate 16 .drainer

/-- An open handle on an empty device of 100 blocks. -/
def openDb : Db := { Db.new Shape.small (Config.wholeDevice 100) with opened := true }

def emptyDevice : Device := ⟨fun _ => Bytes.zeros 512, [], []⟩

/-! ### The theorem -/

/-- The drainer over every interleaving, write error and stall: its watermark moves one ticket at a time and never back,
behind it every ticket is applied, dead, or a published no-op; mutations are applied in ticket order, each at most once,
and only those of published tickets reach the database, which is what these calls make of it. -/
theorem drainer_watermark {sh : Shape} {k seed maxWrites : Nat} (hk : 1 ≤ k) (hk' : k ≤ 29) {db : Db} {d : Device}
    {c : State} {tr : List Event} (hr : Run sh (2 ^ k) maxWrites (new (2 ^ k) seed db d) c tr) :
    ∃ s tr' mark, Legally (2 ^ k) (withHead (unbounded (2 ^ k)) (2 ^ k) (seed % 2 ^ 31)) s (ringEvents tr') ∧
      tr.filter Event.taken = (tr'.filter Event.taken).map Event.wrap ∧ c.durable = mark % 2 ^ 31 ∧
      (c.phase = .idle → c.pending.map Pending.ticket = (List.range' mark (s.cursor - mark)).map (· % 2 ^ 31)) ∧
      Watermark (seed % 2 ^ 31) mark c tr' ∧ DbCalls sh db d tr' c.db c.device := by
  have hN := slotCount_two_pow hk hk'
  obtain ⟨g, h⟩ := hr.sim hN
  refine ⟨g.ring, g.trace, g.mark, h.legal, h.taken, h.durable, ?_, h.watermark hN, h.account.calls⟩
  intro hphase
  have hst := h.stage
  unfold Stage at hst
  rw [hphase] at hst
  obtain ⟨-, hmark, hcur⟩ := hst
  rw [hcur, hmark, Nat.add_sub_cancel_left, ← h.tickets, h.pending, List.map_map, List.map_map]
  rfl

/-- A published put: one sweep applies it and the watermark passes it. -/
theorem drainer_watermark_put :
    ∃ c, Run Shape.small (2 ^ 1) 1 (new (2 ^ 1) 0 openDb emptyDevice) c
      [.ring (.claimed 0 0), .ring (.published 0 0 ⟨Drainer.pack .put 1 1 [97, 98], by decide⟩), .ring (.freed 0),
        .ring (.drained 0 (Drainer.pack .put 1 1 [97, 98])), .wrote [(0, ⟨.put, [97], [98], 0, by decide⟩)] (.ok 1),
        .moved 0, .completed [(0, .applied ⟨.put, [97], [98], 0, by decide⟩)]] ∧
      isTicketDurable c.durable 0 = true ∧ ∃ mark tr', c.durable = mark % 2 ^ 31 ∧ Watermark (0 % 2 ^ 31) mark c tr' := by
  have hexec : (exec Shape.small (2 ^ 1) 1 (publishAndSweep ⟨pack .put 1 1 [97, 98], by decide⟩)
      (new (2 ^ 1) 0 openDb emptyDevice) []).map (fun r => (r.1.durable, r.2)) = some (1,
      [.ring (.claimed 0 0), .ring (.published 0 0 ⟨Drainer.pack .put 1 1 [97, 98], by decide⟩), .ring (.freed 0),
        .ring (.drained 0 (Drainer.pack .put 1 1 [97, 98])), .wrote [(0, ⟨.put, [97], [98], 0, by decide⟩)] (.ok 1),
        .moved 0, .completed [(0, .applied ⟨.put, [97], [98], 0, by decide⟩)]]) := by decide +kernel
  obtain ⟨⟨c, evs⟩, hc, heq⟩ := Option.map_eq_some_iff.mp hexec
  obtain ⟨hdur, rfl⟩ := Prod.mk.inj heq
  have hr := Run.exec Run.start hc
  obtain ⟨s, tr', mark, -, -, hm, -, hw, -⟩ := drainer_watermark (by decide) (by decide) hr
  exact ⟨c, hr, by rw [show c.durable = 1 from hdur]; decide, mark, tr', hm, hw⟩

/-- A published range delete whose end is not above its start: the watermark passes it, `is_ticket_durable` holds, and
`Db::write` was never called. -/
theorem durable_without_write :
    ∃ c payload tr, Run Shape.small (2 ^ 1) 1 (new (2 ^ 1) 0 openDb emptyDevice) c tr ∧ c.phase = .idle ∧
      encodeRangeDelete [98] [97] = some payload.1 ∧ .ring (.published 0 0 payload) ∈ tr ∧ .ring (.skipped 0) ∉ tr ∧
      .ring (.fencedCursor 0) ∉ tr ∧ c.durable = 1 ∧ isTicketDurable c.durable 0 = true ∧ ∀ ops o, .wrote ops o ∉ tr := by
  have hexec : (exec Shape.small (2 ^ 1) 1 (publishAndSweep ⟨pack .rangeDelete 1 1 [98, 97], by decide⟩)
      (new (2 ^ 1) 0 openDb emptyDevice) []).map (fun r => (r.1.durable, r.1.phase, r.2)) = some (1, .idle,
      [.ring (.claimed 0 0), .ring (.published 0 0 ⟨pack .rangeDelete 1 1 [98, 97], by decide⟩), .ring (.freed 0),
        .ring (.drained 0 (pack .rangeDelete 1 1 [98, 97])), .moved 0, .completed [(0, .noop)]]) := by decide +kernel
  obtain ⟨⟨c, evs⟩, hc, heq⟩ := Option.map_eq_some_iff.mp hexec
  simp only [Prod.mk.injEq] at heq
  obtain ⟨hdur, hphase, rfl⟩ := heq
  refine ⟨c, ⟨pack .rangeDelete 1 1 [98, 97], by decide⟩, _, Run.exec Run.start hc, hphase, by decide, by simp, by simp,
    by simp, hdur, by rw [hdur]; decide, by simp⟩

end Horton.Drainer
