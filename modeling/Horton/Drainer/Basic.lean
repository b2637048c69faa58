import Horton.Db.Flush
import Horton.Drainer.Payload

/-!
# The drainer

`drainer.rs` over the ring, at the same grain: a step is one atomic operation on the ring or on the `durable` watermark,
by a writer, a host thread or the drainer inside one of its sweeps, or one whole call into the database, which no other
party can see.
-/

namespace Horton.Drainer

open BlockDev Horton.Ring

/-! ### The watermark -/

/-- Whether the watermark has passed `ticket`. -/
def isTicketDurable (durable ticket : Nat) : Bool :=
  let dist := wrappingSub durable (ticket &&& TICKET_MASK) &&& TICKET_MASK
  dist != 0 && decide (dist < 2 ^ 30)

/-- A ticket drained but not yet acknowledged; a dead one has no payload. -/
structure Pending where
  ticket : Nat
  payload : Option Bytes
  deriving DecidableEq

/-- Where a sweep stands. -/
inductive Phase
  | idle
  -- in the drain loop or in a `poll_drain` of it; before the batch is built; in `fence_cursor`
  | draining
  | batching
  | fencing
  -- before the CAS on `durable`: of the fenced ticket, of the `i`-th pending one
  | fenceAck (t : Nat)
  | acking (i : Nat)
  -- the power is gone
  | off
  deriving DecidableEq

structure State where
  ring : Ring.State Nat
  durable : Nat
  device : Device
  db : Db
  pending : List Pending
  stallBudget : Nat
  stallPolls : Nat
  poisoned : Bool
  durableSeq : Nat
  phase : Phase

/-- How a sweep has resolved a ticket. -/
inductive Resolution
  | applied (op : BatchOp)
  | noop
  | dead
  deriving DecidableEq

/-- What a step lets the others see.  `wrote` is a call of `Db::write` with the tickets whose mutations it was given,
`completed` a sweep that returned `Swept` or `Idle`, with the tickets it resolved. -/
inductive Event
  | ring (e : Ring.Event)
  | wrote (ops : List (Nat × BatchOp)) (outcome : Outcome Error Nat)
  | moved (t : Nat)
  | missed (t : Nat)
  | completed (resolved : List (Nat × Resolution))
  | stalled
  | failed (e : Error)
  | dropped
  | flushed (outcome : Outcome Error Unit)
  deriving DecidableEq

inductive Action
  | ring (a : Ring.Action)
  | sweep
  | drainer
  | flush
  | setStallBudget (budget : Nat)

/-- A drainer over a ring that is seeded with `seed`, and a watermark that starts at its head. -/
def new (N seed : Nat) (db : Db) (device : Device) : State where
  ring := newSeeded (u32 N) N seed
  durable := seed &&& TICKET_MASK
  device := device
  db := db
  pending := []
  stallBudget := 1024
  stallPolls := 0
  poisoned := false
  durableSeq := db.nextSeq
  phase := .idle

/-! ### The batch phase -/

/-- The expiry of what does not expire. -/
theorem noExpiry_lt : 0 < 2 ^ 64 := by decide

/-- The operation a decoded mutation queues: none for an inverted range. -/
def queued : Mutation → Option BatchOp
  | .put key val => some ⟨.put, key, val, 0, noExpiry_lt⟩
  | .delete key => some ⟨.delete, key, [], 0, noExpiry_lt⟩
  | .rangeDelete start stop => if start < stop then some ⟨.rangeDelete, start, stop, 0, noExpiry_lt⟩ else none
  | .putTtl key val expireAt =>
    some ⟨if expireAt = 0 then .put else .putTtl, key, val, expireAt.toNat, expireAt.toNat_lt⟩

def Pending.resolution (p : Pending) : Resolution :=
  match p.payload with
  | none => .dead
  | some bytes =>
    match decode bytes with
    | .ok m => (queued m).elim .noop .applied
    | .error _ => .noop

/-- The operations of the pending tickets, each with its ticket. -/
def queuedOps (pending : List Pending) : List (Nat × BatchOp) :=
  pending.filterMap fun p => match p.resolution with | .applied op => some (p.ticket, op) | _ => none

variable (sh : Shape) (N maxWrites : Nat)

/-- Queues one decoded mutation, and whether an operation was queued. -/
def queue (b : WriteBatch sh) : Mutation → Except Error (WriteBatch sh × Bool)
  | .put key val => (b.put maxWrites key val).map (·, true)
  | .delete key => (b.delete maxWrites key).map (·, true)
  | .rangeDelete start stop =>
    if start < stop then (b.rangeDelete maxWrites start stop).map (·, true) else .ok (b, false)
  | .putTtl key val expireAt => (b.putTtl maxWrites key val expireAt).map (·, true)

/-- The batch of the pending payloads and the number of its operations. -/
def buildBatch : List Pending → WriteBatch sh → Nat → Except Error (WriteBatch sh × Nat)
  | [], b, nOps => .ok (b, nOps)
  | p :: ps, b, nOps =>
    match p.payload with
    | none => buildBatch ps b nOps
    | some bytes =>
      match decode bytes with
      | .error _ => .error .badPayload
      | .ok m =>
        match queue sh maxWrites b m with
        | .error e => .error e
        | .ok (b, more) => buildBatch ps b (if more then nOps + 1 else nOps)

/-! ### The steps of a sweep -/

/-- The CAS that takes the watermark past `ticket`; it is silent when it fails. -/
def advanceDurable (s : State) (ticket : Nat) : State × List Event :=
  let t := ticket &&& TICKET_MASK
  if s.durable = t then ({ s with durable := wrappingAdd t 1 &&& TICKET_MASK }, [.moved t]) else (s, [.missed t])

/-- What the drain loop does with the answer of a poll, if the poll has answered. -/
def polled (s : State) : List Ring.Event → State
  | [.drained t payload] => { s with pending := s.pending ++ [⟨t, some payload⟩], stallPolls := 0 }
  | [.skipped t] => { s with pending := s.pending ++ [⟨t, none⟩], stallPolls := 0 }
  | [.awaiting _] => { s with phase := .batching }
  | _ => s

/-- What a sweep does with the answer of its fence. -/
def fenced (s : State) : List Ring.Event → State × List Event
  | [.fencedCursor t] => ({ s with phase := .fenceAck t }, [])
  | [.notFenced _] => ({ s with phase := .idle }, [.completed []])
  | _ => (s, [])

/-- Nothing was drained: the stall budget counts up, and the cursor is fenced when it is used up. -/
def stallPoll (s : State) : Option (State × List Event) :=
  let polls := (s.stallPolls + 1) % 2 ^ 32
  if polls > s.stallBudget then
    (Ring.step (u32 N) N s.ring .fence).map fun r =>
      ({ s with ring := r.1, stallPolls := 0, phase := .fencing }, r.2.map .ring)
  else some ({ s with stallPolls := polls, phase := .idle }, [.completed []])

/-- The flush phase: one `Db::write` of the batch. -/
def writeBatch (s : State) (batch : WriteBatch sh) (nOps : Nat) : State × List Event :=
  let (outcome, db, device) := Db.write sh batch s.db s.device
  let s' := { s with db := db, device := device }
  let called := Event.wrote (queuedOps s.pending) outcome
  match outcome with
  | .ok base =>
    if nOps > U64_MAX ∨ base + (nOps - 1) > U64_MAX then
      ({ s' with phase := .idle }, [called, .failed .counterExhausted])
    else ({ s' with durableSeq := base + (nOps - 1), phase := .acking 0 }, [called])
  | .err .tableFull | .err .arenaFull => ({ s' with phase := .idle }, [called, .stalled])
  | .err e => ({ s' with poisoned := true, phase := .idle }, [called, .failed e])
  | .cut => ({ s' with phase := .off }, [called])
  | .dropped => ({ s' with phase := .idle }, [called, .dropped])

/-- The next operation of the sweep. -/
def stepSweep (s : State) : Option (State × List Event) :=
  match s.phase with
  | .idle | .off => none
  | .draining =>
    if s.ring.drainer = .idle then
      if s.pending.length < maxWrites then
        (Ring.step (u32 N) N s.ring .poll).map fun r => ({ s with ring := r.1 }, r.2.map .ring)
      else some ({ s with phase := .batching }, [])
    else (Ring.step (u32 N) N s.ring .drainer).map fun r => ({ polled s r.2 with ring := r.1 }, r.2.map .ring)
  | .batching =>
    if s.pending = [] then stallPoll N s
    else
      match buildBatch sh maxWrites s.pending .new 0 with
      | .error e => some ({ s with poisoned := true, phase := .idle }, [.failed e])
      | .ok (batch, nOps) =>
        if nOps = 0 then some ({ s with phase := .acking 0 }, []) else some (writeBatch sh s batch nOps)
  | .fencing =>
    (Ring.step (u32 N) N s.ring .drainer).map fun r =>
      ({ (fenced s r.2).1 with ring := r.1 }, r.2.map .ring ++ (fenced s r.2).2)
  | .fenceAck t =>
    let (s, evs) := advanceDurable s t
    some ({ s with phase := .idle }, evs ++ [.completed [(t, .dead)]])
  | .acking i =>
    match s.pending[i]? with
    | some p =>
      let (s, evs) := advanceDurable s p.ticket
      some ({ s with phase := .acking (i + 1) }, evs)
    | none =>
      some ({ s with pending := [], phase := .idle },
        [.completed (s.pending.map fun p => (p.ticket, p.resolution))])

/-- One step; `none` when the action is not possible here. -/
def step (s : State) : Action → Option (State × List Event)
  | .ring a =>
    if a.ofDrainer then none
    else (Ring.step (u32 N) N s.ring a).map fun r => ({ s with ring := r.1 }, r.2.map .ring)
  | .sweep =>
    if s.phase ≠ .idle then none
    else if s.poisoned then some (s, [.completed []])
    else some ({ s with phase := if s.pending = [] then .draining else .batching }, [])
  | .drainer => stepSweep sh N maxWrites s
  | .flush =>
    if s.phase ≠ .idle then none
    else
      let (outcome, db, device) := Db.flush sh s.db s.device
      some ({ s with db := db, device := device, phase := if outcome = .cut then .off else .idle }, [.flushed outcome])
  | .setStallBudget budget => if s.phase ≠ .idle then none else some ({ s with stallBudget := budget }, [])

end Horton.Drainer
