import Horton.Db.Healthy
import Horton.Drainer.Watermark

/-!
# When a sweep runs out of room

Runs of the drainer over a device without errors.  A full memtable stalls the sweep, and the host flushes and sweeps again;
any other refusal poisons the drainer.  `Room` is what a sweep needs of its batch and of the log before it writes: in a run
where every sweep has it, no sweep fails, and a sweep after a stall and a flush completes.
-/

namespace Horton

open BlockDev Horton.Ring

/-- Keys and values within their limits. -/
def Mutation.Fits (sh : Shape) : Mutation → Prop
  | put key val => key.length ≤ sh.KEY_MAX ∧ val.length ≤ sh.VAL_MAX
  | putTtl key val _ => key.length ≤ sh.KEY_MAX ∧ val.length ≤ sh.VAL_MAX
  | delete key => key.length ≤ sh.KEY_MAX
  | rangeDelete start stop => start.length ≤ sh.KEY_MAX ∧ stop.length ≤ sh.KEY_MAX

namespace Drainer

/-- A payload that decodes to a mutation within the limits. -/
def WellFormed (sh : Shape) (payload : Bytes) : Prop := payload.length = 32 ∧ ∃ m, decode payload = .ok m ∧ m.Fits sh

/-- The operations that the pending tickets queue. -/
def State.ops (s : State) : List BatchOp := (queuedOps s.pending).map Prod.snd

/-- What a sweep needs to write its batch: the bounds of its range deletes fit where a batch stores values, its records fit
one block of the log, the batch fits an empty memtable, and where the memtable has room for it now, the log has a block left
and the counter does not run out. -/
structure Room (sh : Shape) (s : State) : Prop where
  bounds : ∀ op ∈ s.ops, op.kind = .rangeDelete → op.val.length ≤ sh.VAL_MAX
  block : (s.ops.map BatchOp.needWal).sum ≤ sh.BLOCK
  slots : s.ops.length ≤ sh.CAP
  arena : (s.ops.map fun op => op.key.length + op.val.length).sum ≤ sh.ARENA
  log : Db.checkBatch sh s.db.table s.ops = .ok () →
    s.db.nextSeq + s.ops.length ≤ U64_MAX ∧ s.db.wal.nextBlock < s.db.wal.walEnd

/-- The sweep that is about to write has room. -/
def HasRoom (sh : Shape) (s : State) : Action → Prop
  | .drainer => s.phase = .batching → s.ops ≠ [] → Room sh s
  | _ => True

/-- A run in which every sweep has room. -/
inductive Roomy (sh : Shape) (N maxWrites : Nat) (init : State) : State → List Event → Prop
  | start : Roomy sh N maxWrites init init []
  | step {s s' : State} {tr evs : List Event} {a : Action} (h : Roomy sh N maxWrites init s tr) (ha : HasRoom sh s a)
      (hs : step sh N maxWrites s a = some (s', evs)) : Roomy sh N maxWrites init s' (tr ++ evs)

/-! ### What a trace must not show -/

/-- What the host has seen last: a sweep that completed, one that stalled, or a flush since a stall. -/
inductive Mode
  | calm
  | stalled
  | relieved
  deriving DecidableEq

def Mode.next (m : Mode) : Event → Mode
  | .stalled => .stalled
  | .completed _ => .calm
  | .flushed outcome => if m ≠ .calm ∧ outcome = .ok () then .relieved else m
  | _ => m

/-- No sweep fails, and one that follows a stall and a flush that returned has applied its batch. -/
def Event.Recoverable (m : Mode) : Event → Prop
  | .failed _ => False
  | .stalled => m ≠ .relieved
  | .completed resolved => m = .relieved → ∃ t op, (t, Resolution.applied op) ∈ resolved
  | _ => True

def Recovers : Mode → List Event → Prop
  | _, [] => True
  | m, e :: es => e.Recoverable m ∧ Recovers (m.next e) es

/-! ### The batch of a sweep -/

section Batch

variable {sh : Shape} {maxWrites : Nat}

/-- A payload decodes to a mutation of a key with at least one byte. -/
private theorem decode_key {p : Bytes} (hp : p.length = 32) {m : Mutation} (h : decode p = .ok m) : m.op.key ≠ [] := by
  have hne : ∀ off len, off + len ≤ 32 → len ≠ 0 → field p off len ≠ [] := by
    intro off len hle h0 hnil
    have := @length_field p off len (by omega)
    rw [hnil, List.length_nil] at this
    omega
  unfold decode at h
  dsimp only at h
  split at h
  · cases h
  · split_ifs at h
    obtain rfl := Except.ok.inj h
    exact hne 3 _ (by omega) (by omega)
  · split_ifs at h
    obtain rfl := Except.ok.inj h
    exact hne 3 _ (by omega) (by omega)
  · split_ifs at h
    obtain rfl := Except.ok.inj h
    exact hne 3 _ (by omega) (by omega)
  · split_ifs at h
    obtain rfl := Except.ok.inj h
    exact hne 11 _ (by omega) (by omega)

private theorem push_of_fits {b : WriteBatch sh} {kind : Op} {key val : Bytes} {expireAt : UInt64}
    {hr : kind = .rangeDelete → key < val ∧ val.length ≤ sh.KEY_MAX} {he : kind ≠ .putTtl → expireAt = 0}
    (hlen : b.ops.length < maxWrites) (hne : key ≠ []) (hk : key.length ≤ sh.KEY_MAX)
    (hv : (WriteBatch.valOf kind val).length ≤ sh.VAL_MAX) : ∃ b', b.push maxWrites kind key val expireAt hr he = .ok b' := by
  have h1 := sh.assertKey.2
  have h2 := sh.assertVal
  have h3 : U16_MAX = 0xFFFF := rfl
  unfold WriteBatch.push
  rw [if_neg (by omega), dif_neg hne, if_neg (by omega), dif_neg (by omega), if_neg (by omega), dif_neg (by omega)]
  exact ⟨_, rfl⟩

/-- A mutation within the limits is queued in a batch with room. -/
private theorem queue_of_fits {b : WriteBatch sh} {m : Mutation} (hlen : b.ops.length < maxWrites) (hne : m.op.key ≠ [])
    (hfit : m.Fits sh) (hb : ∀ op ∈ queued m, op.kind = .rangeDelete → op.val.length ≤ sh.VAL_MAX) :
    ∃ r, queue sh maxWrites b m = .ok r := by
  have hmap : ∀ {x : Except Error (WriteBatch sh)}, (∃ b', x = .ok b') → ∃ r, x.map (·, true) = .ok r := by
    rintro x ⟨b', rfl⟩
    exact ⟨_, rfl⟩
  cases m with
  | put key val => exact hmap (push_of_fits hlen hne hfit.1 hfit.2)
  | delete key => exact hmap (push_of_fits hlen hne hfit (by simp [WriteBatch.valOf]))
  | putTtl key val expireAt =>
    refine hmap (push_of_fits hlen hne hfit.1 ?_)
    have hnd : (if expireAt = 0 then Op.put else Op.putTtl) ≠ .delete := by split <;> decide
    rw [WriteBatch.valOf, if_neg hnd]
    exact hfit.2
  | rangeDelete start stop =>
    simp only [queue]
    split
    · rename_i hlt
      have hval := hb ⟨.rangeDelete, start, stop, 0, by decide⟩ (by simp [queued, hlt]) rfl
      refine hmap ?_
      rw [WriteBatch.rangeDelete, dif_neg (not_le.mpr hlt), dif_neg (by have := hfit.2; omega)]
      exact push_of_fits hlen hne hfit.1 hval
    · exact ⟨_, rfl⟩

/-- Pending payloads within the limits make up a batch. -/
private theorem buildBatch_of_fits {ps : List Pending} {b : WriteBatch sh} {n : Nat}
    (hlen : b.ops.length + ps.length ≤ maxWrites) (hwf : ∀ p ∈ ps, ∀ bytes, p.payload = some bytes → WellFormed sh bytes)
    (hb : ∀ x ∈ queuedOps ps, x.2.kind = .rangeDelete → x.2.val.length ≤ sh.VAL_MAX) :
    ∃ r, buildBatch sh maxWrites ps b n = .ok r := by
  induction ps generalizing b n with
  | nil => exact ⟨_, rfl⟩
  | cons p ps ih =>
    have hrest : ∀ x ∈ queuedOps ps, x.2.kind = .rangeDelete → x.2.val.length ≤ sh.VAL_MAX := by
      intro x hx
      exact hb x (by rw [queuedOps_cons]; exact List.mem_append_right _ hx)
    have hwf' : ∀ q ∈ ps, ∀ bytes, q.payload = some bytes → WellFormed sh bytes :=
      fun q hq => hwf q (List.mem_cons_of_mem _ hq)
    rw [List.length_cons] at hlen
    cases hp : p.payload with
    | none =>
      simp only [buildBatch, hp]
      exact ih (by omega) hwf' hrest
    | some bytes =>
      obtain ⟨hl, m, hm, hfit⟩ := hwf p List.mem_cons_self bytes hp
      have hhere : ∀ op ∈ queued m, op.kind = .rangeDelete → op.val.length ≤ sh.VAL_MAX := by
        intro op hop
        refine hb (p.ticket, op) ?_
        rw [queuedOps_cons]
        refine List.mem_append_left _ ?_
        simp [queuedOps, Pending.resolution, hp, hm, Option.mem_def.mp hop]
      obtain ⟨⟨b₁, more⟩, hq⟩ := @queue_of_fits sh maxWrites b m (by omega) (decode_key hl hm) hfit hhere
      simp only [buildBatch, hp, hm, hq]
      refine ih ?_ hwf' hrest
      rw [(queue_ok hq).1, List.length_append]
      have : (queued m).toList.length ≤ 1 := by cases queued m <;> simp
      omega

end Batch

/-! ### What holds between the steps -/

/-- Where the ring's side of a sweep stands. -/
def AtRing (maxWrites : Nat) (s : State) : Prop :=
  match s.phase with
  | .draining => s.ring.drainer = .idle ∨ (s.ring.drainer.polls = true ∧ s.pending.length < maxWrites)
  | .fencing => s.ring.drainer.fences = true
  | _ => s.ring.drainer = .idle

/-- A batch that stalled is kept: the sweep is over, or it is about to write the batch, or has written it. -/
def Holding (s : State) : Prop :=
  s.ops ≠ [] ∧ (s.phase = .idle ∨ s.phase = .batching ∨ (∃ i, s.phase = .acking i) ∨ s.phase = .off)

structure Steady (sh : Shape) (maxWrites : Nat) (m : Mode) (s : State) : Prop where
  ready : s.db.Ready sh
  healthy : Healthy s.device
  unpoisoned : s.poisoned = false
  ring : AtRing maxWrites s
  pending_le : s.pending.length ≤ maxWrites
  wf : ∀ p ∈ s.pending, ∀ bytes, p.payload = some bytes → WellFormed sh bytes
  holding : m ≠ .calm → Holding s
  empty : m = .relieved → s.phase = .idle ∨ s.phase = .batching → s.db.table.len = 0

/-- A step that ends well: nothing it shows is out of order, and the next step starts as this one did. -/
def Goes (sh : Shape) (maxWrites : Nat) (m : Mode) (s' : State) (evs : List Event) : Prop :=
  Recovers m evs ∧ Steady sh maxWrites (evs.foldl Mode.next m) s'

theorem recovers_append (m : Mode) (tr evs : List Event) :
    Recovers m (tr ++ evs) ↔ Recovers m tr ∧ Recovers (tr.foldl Mode.next m) evs := by
  induction tr generalizing m with
  | nil => simp [Recovers]
  | cons e tr ih => rw [List.cons_append, Recovers, ih, Recovers, List.foldl_cons, and_assoc]

/-- What the ring shows is of no matter here. -/
private theorem recovers_ring (m : Mode) (evs : List Ring.Event) :
    Recovers m (evs.map .ring) ∧ (evs.map Event.ring).foldl Mode.next m = m := by
  induction evs generalizing m with
  | nil => exact ⟨trivial, rfl⟩
  | cons e evs ih => exact ⟨⟨trivial, (ih m).1⟩, (ih m).2⟩

section Step

variable {sh : Shape} {N maxWrites : Nat} {m : Mode} {s s' : State} {evs : List Event}

/-- A stalled batch means that the sweep is not looking for tickets. -/
private theorem Steady.calm (h : Steady sh maxWrites m s) (hp : s.phase ≠ .idle ∧ s.phase ≠ .batching ∧
    (∀ i, s.phase ≠ .acking i) ∧ s.phase ≠ .off) : m = .calm := by
  by_contra hm
  rcases (h.holding hm).2 with hc | hc | ⟨i, hc⟩ | hc
  · exact hp.1 hc
  · exact hp.2.1 hc
  · exact hp.2.2.1 i hc
  · exact hp.2.2.2 hc

/-- A step of the ring that leaves the sweep where it is. -/
private theorem Steady.onRing (h : Steady sh maxWrites m s) (s' : State) (evs : List Ring.Event)
    (hs : s' = { s with ring := s'.ring }) (hr : AtRing maxWrites s') : Goes sh maxWrites m s' (evs.map .ring) := by
  obtain ⟨hrec, hfold⟩ := recovers_ring m evs
  refine ⟨hrec, ?_⟩
  rw [hfold]
  rw [hs] at hr ⊢
  exact ⟨h.ready, h.healthy, h.unpoisoned, hr, h.pending_le, h.wf, h.holding, h.empty⟩

/-- A sweep in a calm run moves on, with what it has found. -/
private theorem Steady.moved (h : Steady sh maxWrites .calm s) (s' : State) (hdb : s'.db = s.db)
    (hdev : s'.device = s.device) (hpois : s'.poisoned = s.poisoned) (hring : AtRing maxWrites s')
    (hlen : s'.pending.length ≤ maxWrites)
    (hwf : ∀ p ∈ s'.pending, ∀ bytes, p.payload = some bytes → WellFormed sh bytes) : Steady sh maxWrites .calm s' :=
  ⟨hdb ▸ h.ready, hdev ▸ h.healthy, hpois.trans h.unpoisoned, hring, hlen, hwf, fun hc => absurd rfl hc,
    fun hc => by cases hc⟩

/-- One more ticket in the drain loop. -/
private theorem Steady.pend (h : Steady sh maxWrites .calm s) (hphase : s.phase = .draining)
    (hlt : s.pending.length < maxWrites) {r : Ring.State Nat} (hidle : r.drainer = .idle) (p : Pending) (polls : Nat)
    (hwf : ∀ bytes, p.payload = some bytes → WellFormed sh bytes) :
    Steady sh maxWrites .calm { s with ring := r, pending := s.pending ++ [p], stallPolls := polls } := by
  refine h.moved _ rfl rfl rfl ?_ ?_ ?_
  · show AtRing maxWrites { s with ring := r, pending := s.pending ++ [p], stallPolls := polls }
    simp only [AtRing, hphase]
    exact Or.inl hidle
  · show (s.pending ++ [p]).length ≤ maxWrites
    rw [List.length_append, List.length_singleton]
    omega
  · intro q hq
    rcases List.mem_append.mp hq with hq | hq
    · exact h.wf q hq
    · obtain rfl := List.mem_singleton.mp hq
      exact hwf

private theorem Steady.draining (h : Steady sh maxWrites m s) (hphase : s.phase = .draining)
    (hs : stepSweep sh N maxWrites s = some (s', evs))
    (hev : ∀ t bytes, Event.ring (.drained t bytes) ∈ evs → WellFormed sh bytes) : Goes sh maxWrites m s' evs := by
  obtain rfl := h.calm (by simp [hphase])
  have hring := h.ring
  simp only [AtRing, hphase] at hring
  simp only [stepSweep, hphase] at hs
  by_cases hidle : s.ring.drainer = .idle
  · rw [if_pos hidle] at hs
    split at hs
    · rename_i hlt
      obtain ⟨⟨r, evs⟩, hr, heq⟩ := Option.map_eq_some_iff.mp hs
      obtain ⟨rfl, rfl⟩ := Prod.mk.inj heq
      simp only [Ring.step, hidle, if_true, Option.some.injEq, Prod.mk.injEq] at hr
      obtain ⟨rfl, rfl⟩ := hr
      exact h.onRing _ [] (by simp only [hphase]) (Or.inr ⟨rfl, hlt⟩)
    · obtain ⟨rfl, rfl⟩ := Prod.mk.inj (Option.some.inj hs)
      exact ⟨trivial, h.moved _ rfl rfl rfl hidle h.pending_le h.wf⟩
  · rw [if_neg hidle] at hs
    obtain ⟨hpolls, hlt⟩ := hring.resolve_left hidle
    obtain ⟨⟨r, evs⟩, hr, heq⟩ := Option.map_eq_some_iff.mp hs
    obtain ⟨rfl, rfl⟩ := Prod.mk.inj heq
    rcases stepDrainer_polls hpolls hr with ⟨hgo, hothers⟩ | ⟨hend, ⟨t, bytes, rfl⟩ | ⟨t, rfl⟩ | ⟨t, rfl⟩⟩
    · dsimp only
      rw [Sim.polled_others hothers]
      refine h.onRing _ evs (by simp) ?_
      simp only [AtRing, hphase]
      exact Or.inr ⟨hgo, hlt⟩
    · refine ⟨⟨trivial, trivial⟩, h.pend hphase hlt hend _ _ ?_⟩
      intro bytes' hb
      obtain rfl := Option.some.inj hb
      exact hev t bytes (by simp)
    · exact ⟨⟨trivial, trivial⟩, h.pend hphase hlt hend _ _ (fun bytes hb => by cases hb)⟩
    · exact ⟨⟨trivial, trivial⟩, h.moved _ rfl rfl rfl hend h.pending_le h.wf⟩

private theorem Steady.fencing (h : Steady sh maxWrites m s) (hphase : s.phase = .fencing)
    (hs : stepSweep sh N maxWrites s = some (s', evs)) : Goes sh maxWrites m s' evs := by
  obtain rfl := h.calm (by simp [hphase])
  have hring := h.ring
  simp only [AtRing, hphase] at hring
  simp only [stepSweep, hphase] at hs
  obtain ⟨⟨r, evs⟩, hr, heq⟩ := Option.map_eq_some_iff.mp hs
  obtain ⟨rfl, rfl⟩ := Prod.mk.inj heq
  rcases stepDrainer_fences hring hr with ⟨hgo, rfl⟩ | ⟨hend, ⟨t, rfl⟩ | ⟨t, rfl⟩⟩
  · refine ⟨trivial, h.moved _ rfl rfl rfl ?_ h.pending_le h.wf⟩
    simp only [AtRing, fenced, hphase]
    exact hgo
  · exact ⟨⟨trivial, trivial⟩, h.moved _ rfl rfl rfl hend h.pending_le h.wf⟩
  · exact ⟨⟨trivial, (fun hc => by cases hc), trivial⟩, h.moved _ rfl rfl rfl hend h.pending_le h.wf⟩

/-- The CAS on the watermark changes nothing else. -/
private theorem advanceDurable_eq (s : State) (t : Nat) : ∃ n e, advanceDurable s t = ({ s with durable := n }, [e]) ∧
    e.Recoverable m ∧ m.next e = m := by
  unfold advanceDurable
  dsimp only
  split
  · exact ⟨_, _, rfl, trivial, rfl⟩
  · exact ⟨s.durable, _, rfl, trivial, rfl⟩

private theorem Steady.fenceAck (h : Steady sh maxWrites m s) {t : Nat} (hphase : s.phase = .fenceAck t)
    (hs : stepSweep sh N maxWrites s = some (s', evs)) : Goes sh maxWrites m s' evs := by
  obtain rfl := h.calm (by simp [hphase])
  have hring := h.ring
  simp only [AtRing, hphase] at hring
  obtain ⟨n, e, hadv, hrec, hnext⟩ := @advanceDurable_eq .calm s t
  simp only [stepSweep, hphase, hadv, Option.some.injEq, Prod.mk.injEq] at hs
  obtain ⟨rfl, rfl⟩ := hs
  refine ⟨⟨hrec, ?_, trivial⟩, ?_⟩
  · rw [hnext]
    exact fun hc => by cases hc
  · exact h.moved _ rfl rfl rfl hring h.pending_le h.wf

private theorem mem_resolutions (h : s.ops ≠ []) :
    ∃ t op, (t, Resolution.applied op) ∈ s.pending.map fun p => (p.ticket, p.resolution) := by
  obtain ⟨op, hop⟩ := List.exists_mem_of_ne_nil _ h
  obtain ⟨⟨t, op⟩, hx, rfl⟩ := List.mem_map.mp hop
  obtain ⟨p, hp, hres⟩ := List.mem_filterMap.mp hx
  split at hres
  · rename_i op' hop'
    obtain ⟨rfl, rfl⟩ := Prod.mk.inj (Option.some.inj hres)
    exact ⟨p.ticket, op', List.mem_map.mpr ⟨p, hp, by rw [hop']⟩⟩
  · cases hres

private theorem Steady.acking (h : Steady sh maxWrites m s) {i : Nat} (hphase : s.phase = .acking i)
    (hs : stepSweep sh N maxWrites s = some (s', evs)) : Goes sh maxWrites m s' evs := by
  have hring := h.ring
  simp only [AtRing, hphase] at hring
  cases hp : s.pending[i]? with
  | some p =>
    obtain ⟨n, e, hadv, hrec, hnext⟩ := @advanceDurable_eq m s p.ticket
    simp only [stepSweep, hphase, hp, hadv, Option.some.injEq, Prod.mk.injEq] at hs
    obtain ⟨rfl, rfl⟩ := hs
    refine ⟨⟨hrec, trivial⟩, ?_⟩
    rw [List.foldl_cons, List.foldl_nil, hnext]
    refine ⟨h.ready, h.healthy, h.unpoisoned, hring, h.pending_le, h.wf, ?_, ?_⟩
    · exact fun hm => ⟨(h.holding hm).1, Or.inr (Or.inr (Or.inl ⟨_, rfl⟩))⟩
    · rintro - (hc | hc) <;> cases hc
  | none =>
    simp only [stepSweep, hphase, hp, Option.some.injEq, Prod.mk.injEq] at hs
    obtain ⟨rfl, rfl⟩ := hs
    refine ⟨⟨fun hm => ?_, trivial⟩, ?_⟩
    · exact mem_resolutions (h.holding (by rw [hm]; decide)).1
    · exact ⟨h.ready, h.healthy, h.unpoisoned, hring, Nat.zero_le _, by simp, fun hc => absurd rfl hc, fun hc => by cases hc⟩

/-- Nothing was drained. -/
private theorem Steady.stallPoll (h : Steady sh maxWrites .calm s) (hphase : s.phase = .batching)
    (hs : stallPoll N s = some (s', evs)) : Goes sh maxWrites .calm s' evs := by
  have hring := h.ring
  simp only [AtRing, hphase] at hring
  unfold Drainer.stallPoll at hs
  dsimp only at hs
  split at hs
  · simp only [Ring.step, hring, if_true, Option.map_some, Option.some.injEq, Prod.mk.injEq] at hs
    obtain ⟨rfl, rfl⟩ := hs
    exact ⟨trivial, h.moved _ rfl rfl rfl rfl h.pending_le h.wf⟩
  · obtain ⟨rfl, rfl⟩ := Prod.mk.inj (Option.some.inj hs)
    exact ⟨⟨(fun hc => by cases hc), trivial⟩, h.moved _ rfl rfl rfl hring h.pending_le h.wf⟩

/-- With room for its records, a batch is refused for the memtable's sake only, and never by an empty one. -/
private theorem Room.refused (h : Room sh s) {e : Error} (hc : Db.checkBatch sh s.db.table s.ops = .error e) :
    (e = .tableFull ∨ e = .arenaFull) ∧ ¬ (s.db.table.len = 0 ∧ s.db.table.arena = []) := by
  have h1 := h.block
  have h2 := h.slots
  have h3 := h.arena
  unfold Db.checkBatch at hc
  dsimp only at hc
  rw [if_neg (by omega)] at hc
  split at hc
  · obtain rfl := Except.error.inj hc
    exact ⟨Or.inl rfl, fun ⟨h0, _⟩ => by omega⟩
  · split at hc
    · rename_i hfull
      obtain rfl := Except.error.inj hc
      refine ⟨Or.inr rfl, fun ⟨_, h0⟩ => ?_⟩
      rw [MemTable.arenaLen, h0, List.length_nil] at hfull
      omega
    · cases hc

private theorem Steady.write (h : Steady sh maxWrites m s) (hphase : s.phase = .batching) (hroom : Room sh s)
    {batch : WriteBatch sh} (hops : batch.ops = s.ops) (hne : s.ops ≠ [])
    (hs : writeBatch sh s batch s.ops.length = (s', evs)) : Goes sh maxWrites m s' evs := by
  have hring := h.ring
  simp only [AtRing, hphase] at hring
  have hpos := List.length_pos_iff.mpr hne
  cases hc : Db.checkBatch sh s.db.table s.ops with
  | error e =>
    obtain ⟨he, hempty⟩ := hroom.refused hc
    have hw : Db.write sh batch s.db s.device = (.err e, s.db, s.device) :=
      Db.write_refused h.ready (hops ▸ hne) (hops ▸ hc)
    have hstall : (s', evs) = ({ s with phase := .idle }, [.wrote (queuedOps s.pending) (.err e), .stalled]) := by
      rw [← hs, writeBatch, hw]
      rcases he with rfl | rfl <;> rfl
    obtain ⟨rfl, rfl⟩ := Prod.mk.inj hstall
    refine ⟨⟨trivial, ?_, trivial⟩, ?_⟩
    · intro hm
      have h0 := h.empty hm (Or.inr hphase)
      exact hempty ⟨h0, h.ready.arena h0⟩
    · refine ⟨h.ready, h.healthy, h.unpoisoned, hring, h.pending_le, h.wf, fun _ => ⟨hne, Or.inl rfl⟩, fun hc => by cases hc⟩
  | ok u =>
    obtain ⟨hseq, hlog⟩ := hroom.log hc
    obtain ⟨db', d', hw, hready, hhealthy⟩ := Db.write_ok h.ready h.healthy (hops ▸ hne) (hops ▸ hc) (hops ▸ hseq) hlog
    have hdone : (s', evs) = ({ s with
        db := db'
        device := d'
        durableSeq := s.db.nextSeq + 1 + (s.ops.length - 1)
        phase := .acking 0 }, [.wrote (queuedOps s.pending) (.ok (s.db.nextSeq + 1))]) := by
      rw [← hs, writeBatch, hw]
      dsimp only
      rw [if_neg (by omega)]
    obtain ⟨rfl, rfl⟩ := Prod.mk.inj hdone
    refine ⟨⟨trivial, trivial⟩, ?_⟩
    refine ⟨hready, hhealthy, h.unpoisoned, hring, h.pending_le, h.wf, ?_, ?_⟩
    · exact fun _ => ⟨hne, Or.inr (Or.inr (Or.inl ⟨0, rfl⟩))⟩
    · rintro - (hc | hc) <;> cases hc

private theorem Steady.batching (h : Steady sh maxWrites m s) (hphase : s.phase = .batching)
    (hroom : s.ops ≠ [] → Room sh s) (hs : stepSweep sh N maxWrites s = some (s', evs)) : Goes sh maxWrites m s' evs := by
  have hring := h.ring
  simp only [AtRing, hphase] at hring
  simp only [stepSweep, hphase] at hs
  by_cases hp : s.pending = []
  · obtain rfl : m = .calm := by
      by_contra hm
      exact (h.holding hm).1 (by simp [State.ops, hp, queuedOps])
    rw [if_pos hp] at hs
    exact h.stallPoll hphase hs
  · rw [if_neg hp] at hs
    have hbounds : ∀ x ∈ queuedOps s.pending, x.2.kind = .rangeDelete → x.2.val.length ≤ sh.VAL_MAX := by
      intro x hx
      have hmem : x.2 ∈ s.ops := List.mem_map_of_mem hx
      exact (hroom (List.ne_nil_of_mem hmem)).bounds _ hmem
    obtain ⟨⟨batch, nOps⟩, hb⟩ := @buildBatch_of_fits sh maxWrites s.pending .new 0
      (by rw [show (WriteBatch.new : WriteBatch sh).ops = [] from rfl, List.length_nil, Nat.zero_add]; exact h.pending_le) h.wf hbounds
    obtain ⟨hops, hn, -⟩ := buildBatch_ok hb
    have hops' : batch.ops = s.ops := hops
    have hn' : nOps = s.ops.length := by rw [hn, State.ops, List.length_map, Nat.zero_add]
    rw [hb] at hs
    dsimp only at hs
    split at hs
    · obtain ⟨rfl, rfl⟩ := Prod.mk.inj (Option.some.inj hs)
      refine ⟨trivial, h.ready, h.healthy, h.unpoisoned, hring, h.pending_le, h.wf, ?_, ?_⟩
      · exact fun hm => ⟨(h.holding hm).1, Or.inr (Or.inr (Or.inl ⟨0, rfl⟩))⟩
      · rintro - (hc | hc) <;> cases hc
    · rename_i h0
      have hne : s.ops ≠ [] := fun hnil => h0 (by rw [hn', hnil]; rfl)
      rw [hn'] at hs
      exact h.write hphase (hroom hne) hops' hne (Option.some.inj hs)

/-- Every step of the drainer, its users and the host. -/
theorem Steady.step (h : Steady sh maxWrites m s) {a : Action} (ha : HasRoom sh s a)
    (hs : step sh N maxWrites s a = some (s', evs))
    (hev : ∀ t bytes, Event.ring (.drained t bytes) ∈ evs → WellFormed sh bytes) : Goes sh maxWrites m s' evs := by
  have hring := h.ring
  cases a with
  | ring a =>
    simp only [Drainer.step] at hs
    split at hs
    · cases hs
    · rename_i hd
      obtain ⟨⟨r, evs⟩, hr, heq⟩ := Option.map_eq_some_iff.mp hs
      obtain ⟨rfl, rfl⟩ := Prod.mk.inj heq
      have hdr := (step_others (by simpa using hd) hr).1
      refine h.onRing _ _ rfl ?_
      simpa only [AtRing, hdr] using hring
  | sweep =>
    simp only [Drainer.step, h.unpoisoned] at hs
    split at hs
    · cases hs
    · rename_i hidle
      simp only [ne_eq, not_not] at hidle
      simp only [AtRing, hidle] at hring
      obtain ⟨rfl, rfl⟩ := Prod.mk.inj (Option.some.inj hs)
      refine ⟨trivial, h.ready, h.healthy, rfl, ?_, h.pending_le, h.wf, ?_, ?_⟩
      · by_cases hp : s.pending = []
        · simp only [AtRing, hp, if_true]
          exact Or.inl hring
        · simp only [AtRing, hp, if_false]
          exact hring
      · intro hm
        obtain ⟨hne, -⟩ := h.holding hm
        have hp : s.pending ≠ [] := fun hp => hne (by simp [State.ops, hp, queuedOps])
        exact ⟨hne, Or.inr (Or.inl (if_neg hp))⟩
      · exact fun hm _ => h.empty hm (Or.inl hidle)
  | drainer =>
    simp only [Drainer.step] at hs
    cases hphase : s.phase with
    | idle => simp [stepSweep, hphase] at hs
    | off => simp [stepSweep, hphase] at hs
    | draining => exact h.draining hphase hs hev
    | batching => exact h.batching hphase (ha hphase) hs
    | fencing => exact h.fencing hphase hs
    | fenceAck t => exact h.fenceAck hphase hs
    | acking i => exact h.acking hphase hs
  | flush =>
    simp only [Drainer.step] at hs
    split at hs
    · cases hs
    · rename_i hidle
      simp only [ne_eq, not_not] at hidle
      simp only [AtRing, hidle] at hring
      obtain ⟨hready, hhealthy, hok, herr⟩ := Db.flush_ready h.ready h.healthy
      rcases hf : Db.flush sh s.db s.device with ⟨o, db, d⟩
      rw [hf] at hready hhealthy hok herr
      simp only [hf, Option.some.injEq, Prod.mk.injEq] at hs
      obtain ⟨rfl, rfl⟩ := hs
      refine ⟨⟨trivial, trivial⟩, ?_⟩
      rw [List.foldl_cons, List.foldl_nil]
      refine ⟨hready, hhealthy, h.unpoisoned, ?_, h.pending_le, h.wf, ?_, ?_⟩
      · cases o <;> exact hring
      · intro hm
        have hm' : m ≠ .calm := by
          rintro rfl
          exact hm (by simp [Mode.next])
        refine ⟨(h.holding hm').1, ?_⟩
        cases o with
        | cut => exact Or.inr (Or.inr (Or.inr rfl))
        | _ => exact Or.inl rfl
      · intro hm _
        by_cases ho : o = .ok ()
        · exact (hok ho).1
        · have hm' : m = .relieved := by simpa [Mode.next, ho] using hm
          have := herr ho
          dsimp only at this ⊢
          rw [this]
          exact h.empty hm' (Or.inl hidle)
  | setStallBudget budget =>
    simp only [Drainer.step] at hs
    split at hs
    · cases hs
    · obtain ⟨rfl, rfl⟩ := Prod.mk.inj (Option.some.inj hs)
      exact ⟨trivial, h.ready, h.healthy, h.unpoisoned, hring, h.pending_le, h.wf, h.holding, h.empty⟩

end Step

/-- A sweep on a device without errors never fails, and one that follows a stall and a flush applies its batch, when every
sweep has room. -/
theorem sweep_recovers {sh : Shape} {N seed maxWrites : Nat} {db : Db} {d : Device} (hdb : db.Ready sh) (hd : Healthy d)
    {s : State} {tr : List Event} (hr : Roomy sh N maxWrites (new N seed db d) s tr)
    (hwf : ∀ t bytes, Event.ring (.drained t bytes) ∈ tr → WellFormed sh bytes) : Recovers .calm tr ∧ s.poisoned = false := by
  suffices hall : Recovers .calm tr ∧ Steady sh maxWrites (tr.foldl Mode.next .calm) s from ⟨hall.1, hall.2.unpoisoned⟩
  induction hr with
  | start =>
    refine ⟨trivial, hdb, hd, rfl, rfl, Nat.zero_le _, by simp [new], fun hc => absurd rfl hc, fun hc => by cases hc⟩
  | step _ ha hs ih =>
    obtain ⟨hrec, hst⟩ := ih fun t bytes hb => hwf t bytes (List.mem_append_left _ hb)
    obtain ⟨hrec', hst'⟩ := hst.step ha hs fun t bytes hb => hwf t bytes (List.mem_append_right _ hb)
    exact ⟨(recovers_append _ _ _).mpr ⟨hrec, hrec'⟩, by rw [List.foldl_append]; exact hst'⟩

/-! ### Runs -/

instance (sh : Shape) (s : State) : Decidable (Room sh s) :=
  decidable_of_iff ((∀ op ∈ s.ops, op.kind = .rangeDelete → op.val.length ≤ sh.VAL_MAX) ∧
      (s.ops.map BatchOp.needWal).sum ≤ sh.BLOCK ∧ s.ops.length ≤ sh.CAP ∧
      (s.ops.map fun op => op.key.length + op.val.length).sum ≤ sh.ARENA ∧
      (Db.checkBatch sh s.db.table s.ops = .ok () →
        s.db.nextSeq + s.ops.length ≤ U64_MAX ∧ s.db.wal.nextBlock < s.db.wal.walEnd))
    ⟨fun ⟨h1, h2, h3, h4, h5⟩ => ⟨h1, h2, h3, h4, h5⟩, fun h => ⟨h.bounds, h.block, h.slots, h.arena, h.log⟩⟩

instance (sh : Shape) (s : State) : (a : Action) → Decidable (HasRoom sh s a)
  | .drainer => inferInstanceAs (Decidable (s.phase = .batching → s.ops ≠ [] → Room sh s))
  | .ring _ | .sweep | .flush | .setStallBudget _ => inferInstanceAs (Decidable True)

/-- Executes a schedule while every sweep has room. -/
def execRoomy (sh : Shape) (N maxWrites : Nat) : List Action → State → List Event → Option (State × List Event)
  | [], s, tr => some (s, tr)
  | a :: as, s, tr =>
    if HasRoom sh s a then (step sh N maxWrites s a).bind fun r => execRoomy sh N maxWrites as r.1 (tr ++ r.2) else none

theorem Roomy.exec {sh : Shape} {N maxWrites : Nat} {init s s' : State} {tr tr' : List Event} {as : List Action}
    (hr : Roomy sh N maxWrites init s tr) (h : execRoomy sh N maxWrites as s tr = some (s', tr')) :
    Roomy sh N maxWrites init s' tr' := by
  induction as generalizing s tr with
  | nil =>
    cases h
    exact hr
  | cons a as ih =>
    simp only [execRoomy] at h
    split at h
    · rename_i ha
      obtain ⟨⟨s₁, evs⟩, hs, h⟩ := Option.bind_eq_some_iff.mp h
      exact ih (hr.step ha hs) h
    · cases h

/-- A memtable of one slot. -/
def oneSlot : Shape := { Shape.small with CAP := 1, assertCap := by decide }

/-- What `open` returns on an empty device of `n` blocks. -/
def opened (sh : Shape) (n : Nat) : Outcome Error OpenReport × Db × Device :=
  Db.open_ sh (Db.new sh (Config.wholeDevice n)) emptyDevice

/-- A put of a one-byte key. -/
def putPayload (key : UInt8) : Payload := ⟨pack .put 1 1 [key, 98], rfl⟩

/-- One writer publishes a payload, then the drainer takes `n` steps of a sweep. -/
def publishThenSweep (payload : Payload) (n : Nat) : List Action :=
  [.ring (.claim 0), .ring (.writer 0), .ring (.writer 0), .ring (.publish 0 payload)] ++
    List.replicate 9 (.ring (.writer 0)) ++ [.sweep] ++ List.replicate n .drainer

def Event.drainedBytes : Event → Option Bytes
  | .ring (.drained _ bytes) => some bytes
  | _ => none

private theorem wellFormed_putPayload (sh : Shape) (hv : 1 ≤ sh.VAL_MAX) (key : UInt8) : WellFormed sh (putPayload key).1 :=
  ⟨rfl, .put [key] [98], rfl, sh.assertKey.1, hv⟩

private theorem ready_opened {sh : Shape} (hb : sh.BLOCK = 512) {n : Nat} {r : OpenReport} (h : (opened sh n).1 = .ok r) :
    (opened sh n).2.1.Ready sh := by
  refine Db.ready_of_open (d := emptyDevice) ?_ (Prod.ext h rfl)
  intro i
  rw [hb]
  exact Bytes.length_zeros 512

private theorem wellFormed_drained {sh : Shape} (hv : 1 ≤ sh.VAL_MAX) {tr : List Event} {keys : List UInt8}
    (h : tr.filterMap Event.drainedBytes = keys.map fun k => (putPayload k).1) {t : Nat} {bytes : Bytes}
    (hm : Event.ring (.drained t bytes) ∈ tr) : WellFormed sh bytes := by
  have hmem : bytes ∈ tr.filterMap Event.drainedBytes := List.mem_filterMap.mpr ⟨_, hm, rfl⟩
  rw [h] at hmem
  obtain ⟨key, -, rfl⟩ := List.mem_map.mp hmem
  exact wellFormed_putPayload sh hv key

/-- Two puts into a memtable of one slot: the second sweep stalls, and the one behind a flush completes. -/
theorem sweep_recovers_after_flush :
    ∃ s tr, Roomy oneSlot (2 ^ 1) 1 (new (2 ^ 1) 0 (opened oneSlot 60).2.1 emptyDevice) s tr ∧ Event.stalled ∈ tr ∧
      Event.flushed (.ok ()) ∈ tr ∧ Recovers .calm tr ∧ s.poisoned = false := by
  have hexec : (execRoomy oneSlot (2 ^ 1) 1 (publishThenSweep (putPayload 97) 16 ++ publishThenSweep (putPayload 98) 14 ++
      [.flush, .sweep] ++ List.replicate 3 .drainer) (new (2 ^ 1) 0 (opened oneSlot 60).2.1 emptyDevice) []).map
      (fun r => (decide (Event.stalled ∈ r.2), decide (Event.flushed (.ok ()) ∈ r.2), r.2.filterMap Event.drainedBytes)) =
      some (true, true, [97, 98].map fun k => (putPayload k).1) := by decide +kernel
  obtain ⟨⟨s, tr⟩, hrun, heq⟩ := Option.map_eq_some_iff.mp hexec
  obtain ⟨h1, h2⟩ := Prod.mk.inj heq
  obtain ⟨h2, h3⟩ := Prod.mk.inj h2
  have hroomy := Roomy.exec .start hrun
  have hready : (opened oneSlot 60).2.1.Ready oneSlot := @ready_opened oneSlot rfl 60 ⟨0, 0, 0⟩ (by decide +kernel)
  exact ⟨s, tr, hroomy, of_decide_eq_true h1, of_decide_eq_true h2,
    sweep_recovers hready (show Healthy emptyDevice from rfl) hroomy fun t bytes hb => wellFormed_drained (by decide) h3 hb⟩

/-- Three puts with a log of two blocks: the third sweep finds the log full and poisons the drainer, with room for the put in
the memtable. -/
theorem sweep_poisoned_by_full_log :
    (opened Shape.small 24).1 = .ok ⟨0, 0, 0⟩ ∧ ∃ s tr,
      Run Shape.small (2 ^ 1) 1 (new (2 ^ 1) 0 (opened Shape.small 24).2.1 emptyDevice) s tr ∧
      (∀ t bytes, Event.ring (.drained t bytes) ∈ tr → WellFormed Shape.small bytes) ∧ Event.failed .walFull ∈ tr ∧
      s.poisoned = true ∧ s.db.table.len < Shape.small.CAP := by
  have hexec : (exec Shape.small (2 ^ 1) 1 (publishThenSweep (putPayload 97) 16 ++ publishThenSweep (putPayload 98) 16 ++
      publishThenSweep (putPayload 99) 14) (new (2 ^ 1) 0 (opened Shape.small 24).2.1 emptyDevice) []).map
      (fun r => (decide (Event.failed .walFull ∈ r.2), r.1.poisoned, r.1.db.table.len, r.2.filterMap Event.drainedBytes)) =
      some (true, true, 2, [97, 98, 99].map fun k => (putPayload k).1) := by decide +kernel
  obtain ⟨⟨s, tr⟩, hrun, heq⟩ := Option.map_eq_some_iff.mp hexec
  obtain ⟨h1, h2⟩ := Prod.mk.inj heq
  obtain ⟨h2, h3⟩ := Prod.mk.inj h2
  obtain ⟨h3, h4⟩ := Prod.mk.inj h3
  refine ⟨by decide +kernel, s, tr, Run.exec .start hrun, ?_, of_decide_eq_true h1, h2, ?_⟩
  · exact fun t bytes hb => wellFormed_drained (by decide) h4 hb
  · show s.db.table.len < 4
    rw [show s.db.table.len = 2 from h3]
    decide

end Drainer

end Horton
