import Mathlib.Tactic.Simps.Basic
import Horton.Lib.Bytes

/-!
# The admission ring

`ring.rs` at the grain of its atomic operations: one step is one load, store or `compare_exchange` of a head, cursor,
gate or payload cell, by one of any number of writers, by the single drainer or by a host thread.  The protocol is
written once over an `Encoding` of tickets and gates; `u32` is the encoding of the source, 31-bit tickets with bit 31
for the fenced state, and `unbounded` is the same protocol over tickets that never wrap.
-/

namespace Horton.Ring

open Bytes

/-! ### Tickets and gates in a `u32` -/

def TICKET_MASK : Nat := 0x7FFFFFFF

def FENCED_BIT : Nat := 0x80000000

def wrappingAdd (a b : Nat) : Nat := (a + b) % 2 ^ 32

def wrappingSub (a b : Nat) : Nat := (a + (2 ^ 32 - b)) % 2 ^ 32

def nextTicket (t : Nat) : Nat := wrappingAdd t 1 &&& TICKET_MASK

def publishedGate (t : Nat) : Nat := nextTicket t

/-- `1u32 << N.trailing_zeros()` is `N` itself, a power of two. -/
def releaseGate (N t : Nat) : Nat := wrappingAdd t N &&& TICKET_MASK

/-- Whether the gate `g` shows that its slot has moved past ticket `c`. -/
def gateIsPast (N g c : Nat) : Bool :=
  if g &&& FENCED_BIT ≠ 0 then g &&& TICKET_MASK == c
  else
    let v := g &&& TICKET_MASK
    if v = c then false
    else
      let ticket := if v % N = c % N then v else wrappingSub v 1 &&& TICKET_MASK
      ticket != c && decide (wrappingSub ticket c &&& TICKET_MASK < 2 ^ 30)

/-! ### The two encodings -/

/-- All the protocol knows about tickets and gates. -/
structure Encoding (G : Type) where
  mask : Nat → Nat
  nextTicket : Nat → Nat
  free : Nat → G
  publishedGate : Nat → G
  fenced : Nat → G
  releaseGate : Nat → G
  gateIsPast : G → Nat → Bool

def u32 (N : Nat) : Encoding Nat where
  mask t := t &&& TICKET_MASK
  nextTicket := nextTicket
  free t := t
  publishedGate := publishedGate
  fenced t := t ||| FENCED_BIT
  releaseGate := releaseGate N
  gateIsPast := gateIsPast N

/-- What a gate says, over tickets that are never reused. -/
inductive Gate
  | free (t : Nat)
  | published (t : Nat)
  | fenced (t : Nat)
  deriving DecidableEq, Repr

namespace Gate

def ticket : Gate → Nat
  | free t | published t | fenced t => t

/-- The gate's ticket lies strictly ahead of `c`, or `c` itself was fenced. -/
def isPast (g : Gate) (c : Nat) : Bool :=
  match g with
  | fenced t => t == c
  | free t | published t => decide (c < t)

end Gate

def unbounded (N : Nat) : Encoding Gate where
  mask t := t
  nextTicket t := t + 1
  free := .free
  publishedGate := .published
  fenced := .fenced
  releaseGate t := .free (t + N)
  gateIsPast := Gate.isPast

/-! ### The state -/

/-- `[u8; 32]`. -/
abbrev Payload := { bytes : Bytes // bytes.length = 32 }

/-- The `i`-th of the eight words that `write_payload` stores. -/
def Payload.word (p : Payload) (i : Nat) : Nat := leNat ((p.1.drop (4 * i)).take 4)

/-- The bytes that `read_payload` makes of the words it loads. -/
def payloadOf (words : List Nat) : Bytes := words.flatMap (leBytes 4)

structure Slot (G : Type) where
  gate : G
  cells : List Nat

/-- Where a writer stands: a writer is one `try_claim` call and, when it wins a ticket, the `publish` call that follows.
A thread that holds several tickets at a time counts as several writers. -/
inductive Writer
  | idle
  -- `try_claim`: before the gate load, before the CAS on the head
  | headLoaded (t : Nat)
  | gateMatched (t : Nat)
  -- `try_claim` returned `Some(t)`
  | claimed (t : Nat)
  -- `publish`: `i` cells stored (all eight: before the CAS on the gate), before the reload, before the self-release
  | storing (t : Nat) (payload : Payload) (i : Nat)
  | reloading (t : Nat) (payload : Payload)
  | selfReleasing (t : Nat) (payload : Payload)
  deriving DecidableEq

/-- The ticket a writer has won and not yet returned. -/
def Writer.holds : Writer → Option Nat
  | claimed t | storing t _ _ | reloading t _ | selfReleasing t _ => some t
  | _ => none

inductive Drainer
  | idle
  -- `poll_drain`: before the gate load, between the cell loads, before the two stores
  | polling (c : Nat)
  | reading (c : Nat) (words : List Nat)
  | releasing (c : Nat) (words : List Nat)
  | advancing (c : Nat) (words : List Nat)
  | skipping (c : Nat)
  -- `fence_cursor`: before the head load, before the CAS, before the cursor store
  | fencing (c : Nat)
  | fenceCas (c : Nat)
  | fenceAdvancing (c : Nat)
  deriving DecidableEq

/-- `force_release_slot`: before the store. -/
inductive Host
  | idle
  | releasing (t : Nat)
  deriving DecidableEq

structure State (G : Type) where
  head : Nat
  cursor : Nat
  slots : Nat → Slot G
  writers : Nat → Writer
  stopped : Nat → Bool
  drainer : Drainer
  hosts : Nat → Host

/-- What a call returns; `freed` marks the step that gives a ticket's slot to the next lap. -/
inductive Event
  | claimed (p t : Nat)
  | refused (p : Nat)
  | published (p t : Nat) (payload : Payload)
  | fenced (p t : Nat)
  | drained (t : Nat) (payload : Bytes)
  | skipped (t : Nat)
  | awaiting (t : Nat)
  | fencedCursor (t : Nat)
  | notFenced (t : Nat)
  | released (t : Nat)
  | alreadyPublished (t : Nat)
  | stale (t : Nat)
  | freed (t : Nat)
  deriving DecidableEq

/-- One step of the schedule: a call begins (with its first atomic operation, `publish` apart), or a party takes the
next operation of the call it is in.  A writer may stop for good anywhere. -/
inductive Action
  | claim (p : Nat)
  | publish (p : Nat) (payload : Payload)
  | writer (p : Nat)
  | stop (p : Nat)
  | poll
  | fence
  | drainer
  | forceRelease (h t : Nat)
  | host (h : Nat)

/-- The steps that only the drainer takes, and the outcomes that only it sees. -/
def Action.ofDrainer : Action → Bool
  | .poll | .fence | .drainer => true
  | _ => false

def Event.ofDrainer : Event → Bool
  | .drained _ _ | .skipped _ | .awaiting _ | .fencedCursor _ | .notFenced _ => true
  | _ => false

/-- Inside a `poll_drain`, inside a `fence_cursor`. -/
def Drainer.polls : Drainer → Bool
  | .polling _ | .reading _ _ | .releasing _ _ | .advancing _ _ | .skipping _ => true
  | _ => false

def Drainer.fences : Drainer → Bool
  | .fencing _ | .fenceCas _ | .fenceAdvancing _ => true
  | _ => false

namespace State

variable {G : Type}

def gate (s : State G) (i : Nat) : G := (s.slots i).gate

def cells (s : State G) (i : Nat) : List Nat := (s.slots i).cells

@[simps head cursor writers stopped drainer hosts]
def setGate (s : State G) (i : Nat) (g : G) : State G :=
  { s with slots := fun j => if j = i then { s.slots j with gate := g } else s.slots j }

@[simps head cursor writers stopped drainer hosts]
def setCell (s : State G) (i k v : Nat) : State G :=
  { s with slots := fun j => if j = i then { s.slots j with cells := (s.slots j).cells.set k v } else s.slots j }

@[simps head cursor slots writers stopped drainer hosts]
def setWriter (s : State G) (p : Nat) (w : Writer) : State G :=
  { s with writers := fun q => if q = p then w else s.writers q }

@[simps head cursor slots writers stopped drainer hosts]
def setHost (s : State G) (h : Nat) (w : Host) : State G :=
  { s with hosts := fun k => if k = h then w else s.hosts k }

end State

/-! ### The protocol -/

section Protocol

variable {G : Type} [DecidableEq G] (e : Encoding G) (N : Nat)

/-- The seeding loop of `with_head`: `n` gates from ticket `t` on. -/
def seedGates : Nat → Nat → (Nat → Slot G) → Nat → Slot G
  | 0, _, slots => slots
  | n + 1, t, slots =>
    seedGates n (e.nextTicket t) fun j => if j = t % N then { slots j with gate := e.free t } else slots j

def withHead (head : Nat) : State G where
  head := head
  cursor := head
  slots := seedGates e N N head fun _ => ⟨e.free 0, List.replicate 8 0⟩
  writers _ := .idle
  stopped _ := false
  drainer := .idle
  hosts _ := .idle

def newSeeded (seed : Nat) : State G := withHead e N (seed &&& TICKET_MASK)

variable (s : State G)

/-- The next operation of writer `p`. -/
def stepWriter (p : Nat) : Option (State G × List Event) :=
  match s.writers p with
  | .idle | .claimed _ => none
  | .headLoaded t =>
    if s.gate (t % N) ≠ e.free t then some (s.setWriter p .idle, [.refused p])
    else some (s.setWriter p (.gateMatched t), [])
  | .gateMatched t =>
    if s.head = t then some ({ s.setWriter p (.claimed t) with head := e.nextTicket t }, [.claimed p t])
    else some (s.setWriter p .idle, [.refused p])
  | .storing t payload i =>
    if i < 8 then some ((s.setCell (t % N) i (payload.word i)).setWriter p (.storing t payload (i + 1)), [])
    else if s.gate (t % N) = e.free t then
      some ((s.setGate (t % N) (e.publishedGate t)).setWriter p .idle, [.published p t payload])
    else some (s.setWriter p (.reloading t payload), [])
  | .reloading t payload =>
    if s.gate (t % N) = e.free t then some (s.setWriter p (.storing t payload 8), [])
    else if s.gate (t % N) = e.fenced t then some (s.setWriter p (.selfReleasing t payload), [])
    else some (s.setWriter p .idle, [.fenced p t])
  | .selfReleasing t _ =>
    if s.gate (t % N) = e.fenced t then
      some ((s.setGate (t % N) (e.releaseGate t)).setWriter p .idle, [.freed t, .fenced p t])
    else some (s.setWriter p .idle, [.fenced p t])

/-- The next operation of the drainer's call. -/
def stepDrainer : Option (State G × List Event) :=
  match s.drainer with
  | .idle => none
  | .polling c =>
    if s.gate (c % N) = e.publishedGate c then some ({ s with drainer := .reading c [] }, [])
    else if e.gateIsPast (s.gate (c % N)) c then some ({ s with drainer := .skipping c }, [])
    else some ({ s with drainer := .idle }, [.awaiting c])
  | .reading c words =>
    let words := words ++ [(s.cells (c % N)).getD words.length 0]
    some ({ s with drainer := if words.length < 8 then .reading c words else .releasing c words }, [])
  | .releasing c words =>
    some ({ s.setGate (c % N) (e.releaseGate c) with drainer := .advancing c words }, [.freed c])
  | .advancing c words =>
    some ({ s with cursor := e.nextTicket c, drainer := .idle }, [.drained c (payloadOf words)])
  | .skipping c => some ({ s with cursor := e.nextTicket c, drainer := .idle }, [.skipped c])
  | .fencing c =>
    if s.head = c then some ({ s with drainer := .idle }, [.notFenced c])
    else some ({ s with drainer := .fenceCas c }, [])
  | .fenceCas c =>
    if s.gate (c % N) = e.free c then
      some ({ s.setGate (c % N) (e.fenced c) with drainer := .fenceAdvancing c }, [])
    else some ({ s with drainer := .idle }, [.notFenced c])
  | .fenceAdvancing c => some ({ s with cursor := e.nextTicket c, drainer := .idle }, [.fencedCursor c])

/-- The gate load of `force_release_slot`, called by host thread `h`. -/
def beginRelease (h t : Nat) : State G × List Event :=
  if s.gate (t % N) = e.free t ∨ s.gate (t % N) = e.fenced t then (s.setHost h (.releasing t), [])
  else if s.gate (t % N) = e.publishedGate t then (s, [.alreadyPublished t])
  else (s, [.stale t])

/-- One step, with the outcome of the call it ends; `none` when the action is not possible here. -/
def step (a : Action) : Option (State G × List Event) :=
  match a with
  | .claim p =>
    if s.stopped p = false ∧ s.writers p = .idle then some (s.setWriter p (.headLoaded s.head), []) else none
  | .publish p payload =>
    match s.writers p with
    | .claimed t => if s.stopped p then none else some (s.setWriter p (.storing t payload 0), [])
    | _ => none
  | .writer p => if s.stopped p then none else stepWriter e N s p
  | .stop p => some ({ s with stopped := fun q => if q = p then true else s.stopped q }, [])
  | .poll => if s.drainer = .idle then some ({ s with drainer := .polling s.cursor }, []) else none
  | .fence => if s.drainer = .idle then some ({ s with drainer := .fencing s.cursor }, []) else none
  | .drainer => stepDrainer e N s
  | .forceRelease h ticket => if s.hosts h = .idle then some (beginRelease e N s h (e.mask ticket)) else none
  | .host h =>
    match s.hosts h with
    | .idle => none
    | .releasing t =>
      some ((s.setGate (t % N) (e.releaseGate t)).setHost h .idle, [.freed t, .released t])

end Protocol

end Horton.Ring
