import Horton.Drainer.Basic
import Horton.Ring.Refine

/-!
# The account of a sweep

What a trace of the drainer says about each ticket: the batch of a sweep holds the operations of its pending tickets in
ticket order, and a ticket counts as resolved for a reason, which is a `Db::write` that returned `Ok`, a payload with
nothing to apply, or an outcome of the ring.
-/

namespace Horton.Drainer

open BlockDev Horton.Ring

/-! ### The batch that a sweep writes -/

section Batch

variable {sh : Shape} {maxWrites : Nat}

theorem ops_push {cap : Nat} {b b' : WriteBatch sh} {kind : Op} {key val : Bytes} {expireAt : UInt64}
    {hr : kind = .rangeDelete → key < val ∧ val.length ≤ sh.KEY_MAX} {he : kind ≠ .putTtl → expireAt = 0}
    (h : b.push cap kind key val expireAt hr he = .ok b') :
    b'.ops = b.ops ++ [⟨kind, key, WriteBatch.valOf kind val, expireAt.toNat, expireAt.toNat_lt⟩] := by
  unfold WriteBatch.push at h
  split_ifs at h
  cases h
  rfl

theorem queue_ok {b b' : WriteBatch sh} {m : Mutation} {more : Bool} (h : queue sh maxWrites b m = .ok (b', more)) :
    b'.ops = b.ops ++ (queued m).toList ∧ more = (queued m).isSome := by
  have hmap : ∀ {x : Except Error (WriteBatch sh)}, x.map (·, true) = .ok (b', more) → x = .ok b' ∧ more = true := by
    intro x hx
    cases x with
    | error e => cases hx
    | ok y => cases hx; exact ⟨rfl, rfl⟩
  cases m with
  | put key val =>
    obtain ⟨hp, rfl⟩ := hmap h
    exact ⟨by simpa [queued, WriteBatch.valOf] using ops_push hp, rfl⟩
  | delete key =>
    obtain ⟨hp, rfl⟩ := hmap h
    exact ⟨by simpa [queued, WriteBatch.valOf] using ops_push hp, rfl⟩
  | putTtl key val expireAt =>
    obtain ⟨hp, rfl⟩ := hmap h
    refine ⟨?_, rfl⟩
    have hnd : (if expireAt = 0 then Op.put else Op.putTtl) ≠ .delete := by split <;> decide
    have := ops_push hp
    rw [WriteBatch.valOf, if_neg hnd] at this
    exact this
  | rangeDelete start stop =>
    simp only [queue] at h
    split at h
    · rename_i hlt
      obtain ⟨hp, rfl⟩ := hmap h
      unfold WriteBatch.rangeDelete at hp
      split at hp
      · rename_i hge
        exact absurd hlt (not_lt.mpr hge)
      · split at hp
        · cases hp
        · exact ⟨by simpa [queued, hlt, WriteBatch.valOf] using ops_push hp, by simp [queued, hlt]⟩
    · rename_i hge
      cases h
      simp [queued, hge]

/-- The mutations of the pending payloads all decode. -/
def Decodes (p : Pending) : Prop := ∀ bytes, p.payload = some bytes → ∃ m, decode bytes = .ok m

theorem queuedOps_cons (p : Pending) (ps : List Pending) :
    queuedOps (p :: ps) = queuedOps [p] ++ queuedOps ps := List.filterMap_append (l := [p])

/-- The batch holds the operations of the pending tickets, in ticket order. -/
theorem buildBatch_ok {ps : List Pending} {b b' : WriteBatch sh} {n n' : Nat}
    (h : buildBatch sh maxWrites ps b n = .ok (b', n')) :
    b'.ops = b.ops ++ (queuedOps ps).map Prod.snd ∧ n' = n + (queuedOps ps).length ∧ ∀ p ∈ ps, Decodes p := by
  induction ps generalizing b n with
  | nil =>
    cases h
    simp [queuedOps]
  | cons p ps ih =>
    rw [queuedOps_cons]
    cases hp : p.payload with
    | none =>
      simp only [buildBatch, hp] at h
      obtain ⟨h1, h2, h3⟩ := ih h
      have hq : queuedOps [p] = [] := by simp [queuedOps, Pending.resolution, hp]
      rw [hq]
      exact ⟨h1, h2, List.forall_mem_cons.mpr ⟨(fun bytes hb => by rw [hp] at hb; cases hb), h3⟩⟩
    | some bytes =>
      simp only [buildBatch, hp] at h
      cases hm : decode bytes with
      | error e => simp [hm] at h
      | ok m =>
        simp only [hm] at h
        cases hq : queue sh maxWrites b m with
        | error e => simp [hq] at h
        | ok r =>
          obtain ⟨b₁, more⟩ := r
          simp only [hq] at h
          obtain ⟨h1, h2, h3⟩ := ih h
          obtain ⟨hb, rfl⟩ := queue_ok hq
          have hops : queuedOps [p] = ((queued m).map fun op => (p.ticket, op)).toList := by
            cases hqm : queued m <;> simp [queuedOps, Pending.resolution, hp, hm, hqm]
          rw [hops]
          refine ⟨?_, ?_, List.forall_mem_cons.mpr ⟨?_, h3⟩⟩
          · rw [h1, hb]
            cases queued m <;> simp
          · rw [h2]
            cases queued m
            · simp
            · simp; omega
          · intro bytes' hb'
            rw [hp] at hb'
            cases hb'
            exact ⟨m, hm⟩

/-- The numbers of a written batch fit `u64`. -/
theorem write_ok {batch : WriteBatch sh} {db db' : Db} {d d' : Device} {base : Nat}
    (h : Db.write sh batch db d = (.ok base, db', d')) (hne : batch.ops ≠ []) :
    1 ≤ base ∧ base + (batch.ops.length - 1) ≤ U64_MAX := by
  suffices hw : (Db.write sh batch).wp (fun o _ _ => ∀ base, o = .ok base →
      1 ≤ base ∧ base + (batch.ops.length - 1) ≤ U64_MAX) db d by
    exact hw base (by rw [h])
  have hlen := List.length_pos_iff.mpr hne
  unfold Db.write
  -- whatever the WAL does on the way, the number returned was fixed before
  refine Prog.wp_bind_result fun _ s d => ?_
  rw [Prog.wp_bind, Prog.wp_get, Prog.andThen_ok, if_neg hne]
  refine Prog.wp_bind_result fun _ s' d => ?_
  dsimp only
  split
  on_goal 1 => refine Prog.wp_bind_result fun _ s' d => ?_
  all_goals
    split
    · exact fun b hb => by cases hb
    · rename_i hle
      refine Prog.wp_bind_result fun _ s' d => ?_
      refine Prog.wp_bind_result fun _ s' d => ?_
      refine Prog.wp_bind_result fun _ s' d => ?_
      refine Prog.wp_bind_result fun _ s' d => ?_
      refine Prog.wp_bind_result fun _ s' d => ?_
      refine Prog.wp_bind_result fun _ s' d => ?_
      rintro _ ⟨⟩
      omega

end Batch

/-! ### What a trace says -/

def Event.toRing : Event → Option Ring.Event
  | .ring e => some e
  | _ => none

def Event.movedTicket : Event → Option Nat
  | .moved t => some t
  | _ => none

def Event.resolved : Event → List (Nat × Resolution)
  | .completed l => l
  | _ => []

/-- The operations of a `Db::write` that returned `Ok`. -/
def Event.applied : Event → List (Nat × BatchOp)
  | .wrote ops (.ok _) => ops
  | _ => []

/-- The event with its tickets in 31 bits. -/
def Event.wrap : Event → Event
  | .ring e => .ring e.wrap
  | .wrote ops o => .wrote (ops.map fun x => (x.1 % 2 ^ 31, x.2)) o
  | .moved t => .moved (t % 2 ^ 31)
  | .missed t => .missed (t % 2 ^ 31)
  | .completed l => .completed (l.map fun x => (x.1 % 2 ^ 31, x.2))
  | e => e

/-- Refused claims and polls without an answer apart. -/
def Event.taken : Event → Bool
  | .ring (.refused _) | .ring (.awaiting _) => false
  | _ => true

def Pending.wrap (p : Pending) : Pending := { p with ticket := p.ticket % 2 ^ 31 }

/-- Why a ticket counts as resolved in this way. -/
def Warranted (tr : List Event) (t : Nat) : Resolution → Prop
  | .applied op => ∃ ops base, .wrote ops (.ok base) ∈ tr ∧ (t, op) ∈ ops
  | .noop => ∃ bytes m, .ring (.drained t bytes) ∈ tr ∧ decode bytes = .ok m ∧ queued m = none
  | .dead => .ring (.skipped t) ∈ tr ∨ .ring (.fencedCursor t) ∈ tr

/-- A pending ticket is one that the ring has handed over or declared dead. -/
def Said (tr : List Event) (p : Pending) : Prop :=
  match p.payload with
  | some bytes => .ring (.drained p.ticket bytes) ∈ tr
  | none => .ring (.skipped p.ticket) ∈ tr

/-- The calls in a trace lead the database from one state to the other. -/
inductive DbCalls (sh : Shape) (db : Db) (d : Device) : List Event → Db → Device → Prop
  | start : DbCalls sh db d [] db d
  | write {tr db₁ d₁ db₂ d₂} {batch : WriteBatch sh} {ops : List (Nat × BatchOp)} {o : Outcome Error Nat} :
    DbCalls sh db d tr db₁ d₁ → batch.ops = ops.map Prod.snd → Db.write sh batch db₁ d₁ = (o, db₂, d₂) →
      DbCalls sh db d (tr ++ [.wrote ops o]) db₂ d₂
  | flush {tr db₁ d₁ db₂ d₂} {o : Outcome Error Unit} :
    DbCalls sh db d tr db₁ d₁ → Db.flush sh db₁ d₁ = (o, db₂, d₂) → DbCalls sh db d (tr ++ [.flushed o]) db₂ d₂
  | other {tr db₁ d₁} {e : Event} : DbCalls sh db d tr db₁ d₁ → (∀ ops o, e ≠ .wrote ops o) → (∀ o, e ≠ .flushed o) →
      DbCalls sh db d (tr ++ [e]) db₁ d₁

theorem Warranted.mono {tr : List Event} {t : Nat} {r : Resolution} (h : Warranted tr t r) (evs : List Event) :
    Warranted (tr ++ evs) t r := by
  cases r with
  | applied op =>
    obtain ⟨ops, base, h1, h2⟩ := h
    exact ⟨ops, base, List.mem_append_left _ h1, h2⟩
  | noop =>
    obtain ⟨bytes, m, h1, h2⟩ := h
    exact ⟨bytes, m, List.mem_append_left _ h1, h2⟩
  | dead => exact h.imp (List.mem_append_left _) (List.mem_append_left _)

theorem Said.mono {tr : List Event} {p : Pending} (h : Said tr p) (evs : List Event) : Said (tr ++ evs) p := by
  unfold Said at h ⊢
  split at h <;> exact List.mem_append_left _ h

/-! ### Pending tickets and their operations -/

@[simp] theorem Pending.wrap_payload (p : Pending) : p.wrap.payload = p.payload := rfl

@[simp] theorem Pending.wrap_resolution (p : Pending) : p.wrap.resolution = p.resolution := rfl

theorem Pending.applied_iff {p : Pending} {op : BatchOp} (h : p.resolution = .applied op) :
    ∃ bytes m, p.payload = some bytes ∧ decode bytes = .ok m ∧ queued m = some op := by
  unfold Pending.resolution at h
  split at h
  · cases h
  · rename_i bytes hp
    split at h
    · rename_i m hm
      cases hq : queued m with
      | none => simp [hq] at h
      | some op' =>
        rw [hq] at h
        exact ⟨bytes, m, hp, hm, by rw [hq]; simpa using h⟩
    · cases h

theorem mem_queuedOps {ps : List Pending} {x : Nat × BatchOp} :
    x ∈ queuedOps ps ↔ ∃ p ∈ ps, p.ticket = x.1 ∧ p.resolution = .applied x.2 := by
  unfold queuedOps
  rw [List.mem_filterMap]
  constructor
  · rintro ⟨p, hp, heq⟩
    refine ⟨p, hp, ?_⟩
    split at heq
    · rename_i op hop
      cases heq
      exact ⟨rfl, hop⟩
    · cases heq
  · rintro ⟨p, hp, h1, h2⟩
    exact ⟨p, hp, by rw [h2, h1]⟩

theorem queuedOps_wrap (ps : List Pending) :
    queuedOps (ps.map Pending.wrap) = (queuedOps ps).map fun x => (x.1 % 2 ^ 31, x.2) := by
  unfold queuedOps
  rw [List.filterMap_map, List.map_filterMap]
  congr
  funext p
  rw [Function.comp_apply, Pending.wrap_resolution]
  cases p.resolution <;> rfl

theorem queuedOps_sublist (ps : List Pending) : ((queuedOps ps).map Prod.fst).Sublist (ps.map Pending.ticket) := by
  induction ps with
  | nil => exact List.Sublist.slnil
  | cons p ps ih =>
    have h1 : ((queuedOps [p]).map Prod.fst).Sublist [p.ticket] := by cases hr : p.resolution <;> simp [queuedOps, hr]
    rw [queuedOps_cons, List.map_append]
    exact h1.append ih

/-- A pending ticket whose operation, if it has one, was applied is resolved. -/
theorem warranted_of_said {tr : List Event} {p : Pending} (hs : Said tr p) (hd : Decodes p)
    (ha : ∀ op, p.resolution = .applied op → Warranted tr p.ticket (.applied op)) :
    Warranted tr p.ticket p.resolution := by
  cases hr : p.resolution with
  | applied op => exact ha op hr
  | dead =>
    unfold Pending.resolution at hr
    unfold Said at hs
    split at hr
    · rename_i hp
      rw [hp] at hs
      exact Or.inl hs
    · split at hr
      · rename_i m _
        cases hq : queued m <;> simp [hq] at hr
      · cases hr
  | noop =>
    unfold Pending.resolution at hr
    unfold Said at hs
    split at hr
    · cases hr
    · rename_i bytes hp
      rw [hp] at hs
      obtain ⟨m, hm⟩ := hd bytes hp
      rw [hm] at hr
      refine ⟨bytes, m, hs, hm, ?_⟩
      cases hq : queued m with
      | none => rfl
      | some op => simp [hq] at hr

/-! ### The account of resolved tickets -/

/-- The tickets from `seed` up to `base` are resolved, each for a reason; the cursor is at `cursor`, and the database at
`db` and `d`. -/
structure Account (sh : Shape) (init : State) (seed base cursor : Nat) (tr : List Event) (db : Db) (d : Device) :
    Prop where
  seed_le : seed ≤ base
  done : (tr.flatMap Event.resolved).map Prod.fst = List.range' seed (base - seed)
  warranted : ∀ x ∈ tr.flatMap Event.resolved, Warranted tr x.1 x.2
  order : ((tr.flatMap Event.applied).map Prod.fst).Pairwise (· < ·)
  below : ∀ x ∈ tr.flatMap Event.applied, x.1 < cursor
  called : ∀ ops o, .wrote ops o ∈ tr → ∀ x ∈ ops, ∃ bytes m, .ring (.drained x.1 bytes) ∈ tr ∧
    decode bytes = .ok m ∧ queued m = some x.2
  calls : DbCalls sh init.db init.device tr db d

namespace Account

variable {sh : Shape} {init : State} {seed base cursor : Nat} {tr : List Event} {db : Db} {d : Device}

/-- What has to be shown of one more event. -/
theorem snoc (h : Account sh init seed base cursor tr db d) {e : Event} {n : Nat} {db' : Db} {d' : Device}
    (hres : e.resolved.map Prod.fst = List.range' base n) (hw : ∀ x ∈ e.resolved, Warranted tr x.1 x.2)
    (hsort : (e.applied.map Prod.fst).Pairwise (· < ·))
    (hnew : ∀ y ∈ tr.flatMap Event.applied, ∀ x ∈ e.applied, y.1 < x.1) (hlt : ∀ x ∈ e.applied, x.1 < cursor)
    (hcalled : ∀ ops o, e = .wrote ops o → ∀ x ∈ ops, ∃ bytes m, .ring (.drained x.1 bytes) ∈ tr ∧
      decode bytes = .ok m ∧ queued m = some x.2)
    (hcalls : DbCalls sh init.db init.device (tr ++ [e]) db' d') :
    Account sh init seed (base + n) cursor (tr ++ [e]) db' d' := by
  have hr : (tr ++ [e]).flatMap Event.resolved = tr.flatMap Event.resolved ++ e.resolved := by simp
  have ha : (tr ++ [e]).flatMap Event.applied = tr.flatMap Event.applied ++ e.applied := by simp
  refine ⟨h.seed_le.trans (Nat.le_add_right _ _), ?_, ?_, ?_, ?_, ?_, hcalls⟩
  · rw [hr, List.map_append, h.done, hres]
    have := tickets_append h.seed_le (Nat.le_add_right base n)
    rwa [Nat.add_sub_cancel_left] at this
  · intro x hx
    rw [hr] at hx
    rcases List.mem_append.mp hx with hx | hx
    · exact (h.warranted x hx).mono _
    · exact (hw x hx).mono _
  · rw [ha, List.map_append, List.pairwise_append]
    refine ⟨h.order, hsort, ?_⟩
    intro a ha' b hb'
    obtain ⟨y, hy, rfl⟩ := List.mem_map.mp ha'
    obtain ⟨x, hx, rfl⟩ := List.mem_map.mp hb'
    exact hnew y hy x hx
  · intro x hx
    rw [ha] at hx
    rcases List.mem_append.mp hx with hx | hx
    · exact h.below x hx
    · exact hlt x hx
  · intro ops o hmem x hx
    have hd : ∃ bytes m, .ring (.drained x.1 bytes) ∈ tr ∧ decode bytes = .ok m ∧ queued m = some x.2 := by
      rcases List.mem_append.mp hmem with hm | hm
      · exact h.called ops o hm x hx
      · exact hcalled ops o (List.mem_singleton.mp hm).symm x hx
    obtain ⟨bytes, m, hb, hm⟩ := hd
    exact ⟨bytes, m, List.mem_append_left _ hb, hm⟩

/-- An event that resolves nothing and is no call of the database. -/
def Plain : Event → Prop
  | .wrote _ _ | .flushed _ => False
  | .completed l => l = []
  | _ => True

theorem note (h : Account sh init seed base cursor tr db d) {e : Event} (he : Plain e) :
    Account sh init seed base cursor (tr ++ [e]) db d := by
  have hr : e.resolved = [] := by cases e <;> first | exact he | rfl
  have ha : e.applied = [] := by cases e <;> first | exact he.elim | rfl
  have hc : ∀ ops o, e ≠ .wrote ops o := by rintro ops o rfl; exact he
  have hf : ∀ o, e ≠ .flushed o := by rintro o rfl; exact he
  exact h.snoc (n := 0) (by simp [hr]) (by simp [hr]) (by simp [ha]) (by simp [ha]) (by simp [ha])
    (fun ops o h' => absurd h' (hc ops o)) (h.calls.other hc hf)

theorem notes (h : Account sh init seed base cursor tr db d) {evs : List Event} (he : ∀ e ∈ evs, Plain e) :
    Account sh init seed base cursor (tr ++ evs) db d := by
  induction evs generalizing tr with
  | nil => simpa using h
  | cons e evs ih =>
    have := ih (h.note (he e (by simp))) fun e' he' => he e' (by simp [he'])
    simpa using this

/-- The cursor moves on. -/
theorem advance (h : Account sh init seed base cursor tr db d) {cursor' : Nat} (hle : cursor ≤ cursor') :
    Account sh init seed base cursor' tr db d :=
  ⟨h.seed_le, h.done, h.warranted, h.order, fun x hx => (h.below x hx).trans_le hle, h.called, h.calls⟩

/-- A sweep completes: it resolves the tickets after `base`. -/
theorem complete (h : Account sh init seed base cursor tr db d) {l : List (Nat × Resolution)}
    (hl : l.map Prod.fst = List.range' base l.length) (hw : ∀ x ∈ l, Warranted tr x.1 x.2) :
    Account sh init seed (base + l.length) cursor (tr ++ [.completed l]) db d :=
  h.snoc hl hw (by simp [Event.applied]) (by simp [Event.applied]) (by simp [Event.applied]) (by simp)
    (h.calls.other (by simp) (by simp))

theorem flush (h : Account sh init seed base cursor tr db d) {o : Outcome Error Unit} {db' : Db} {d' : Device}
    (hf : Db.flush sh db d = (o, db', d')) : Account sh init seed base cursor (tr ++ [.flushed o]) db' d' :=
  h.snoc (n := 0) (by simp [Event.resolved]) (by simp [Event.resolved]) (by simp [Event.applied])
    (by simp [Event.applied]) (by simp [Event.applied]) (by simp) (h.calls.flush hf)

/-- `Db::write` is called with the operations of tickets that the ring has handed over, none of them applied before. -/
theorem write (h : Account sh init seed base cursor tr db d) {batch : WriteBatch sh} {ops : List (Nat × BatchOp)}
    {o : Outcome Error Nat} {db' : Db} {d' : Device} (hb : batch.ops = ops.map Prod.snd)
    (hw : Db.write sh batch db d = (o, db', d')) (hsort : (ops.map Prod.fst).Pairwise (· < ·))
    (hnew : ∀ y ∈ tr.flatMap Event.applied, ∀ x ∈ ops, y.1 < x.1) (hlt : ∀ x ∈ ops, x.1 < cursor)
    (hsaid : ∀ x ∈ ops, ∃ bytes m, .ring (.drained x.1 bytes) ∈ tr ∧ decode bytes = .ok m ∧ queued m = some x.2) :
    Account sh init seed base cursor (tr ++ [.wrote ops o]) db' d' := by
  have hsub : ∀ x ∈ Event.applied (.wrote ops o), x ∈ ops := by cases o <;> simp [Event.applied]
  refine h.snoc (n := 0) (by simp [Event.resolved]) (by simp [Event.resolved]) ?_
    (fun y hy x hx => hnew y hy x (hsub x hx)) (fun x hx => hlt x (hsub x hx)) ?_ (h.calls.write hb hw)
  · cases o with
    | ok base => exact hsort
    | _ => exact List.Pairwise.nil
  · rintro ops' o' ⟨⟩
    exact hsaid

end Account

end Horton.Drainer
