import Horton.Ring.Simulation

/-!
# What the host's release touches

`force_release_slot` loads the gate of a ticket's slot and stores `FREE(t + N)` when the load read `FREE(t)` or `FENCED(t)`.
A ticket is outstanding from its claim until it is published or its slot is given away.  The store finds the slot of an
outstanding ticket, and finds it as the load did, in every run in which the host keeps to outstanding tickets of writers
that have stopped and to one release of a ticket at a time; the gate of a ticket that is yet to be claimed reads `FREE(t)`
too, and there the code gives the slot away as well.
-/

namespace Horton.Ring

open Bytes

/-! ### Outstanding tickets -/

/-- Ticket `t` is published, or its slot goes to the next lap. -/
def Event.ends (t : Nat) : Event → Prop
  | .published _ u _ => u = t
  | .freed u => u = t
  | _ => False

/-- Ticket `t` was claimed, and neither published nor given away since. -/
def Outstanding (tr : List Event) (t : Nat) : Prop :=
  ∃ pre p post, tr = pre ++ .claimed p t :: post ∧ ∀ e ∈ post, ¬ e.ends t

/-- The outcomes that leave every ticket as it is. -/
def Event.Quiet (e : Event) : Prop := (∀ p t, e ≠ .claimed p t) ∧ ∀ t, ¬ e.ends t

section Outstanding

variable {tr evs : List Event} {e : Event} {t : Nat}

theorem outstanding_concat : Outstanding (tr ++ [e]) t ↔ (∃ p, e = .claimed p t) ∨ (Outstanding tr t ∧ ¬ e.ends t) := by
  constructor
  · rintro ⟨pre, p, post, heq, hpost⟩
    rcases List.eq_nil_or_concat' post with rfl | ⟨post', e', rfl⟩
    · obtain ⟨-, h⟩ := List.append_inj' heq rfl
      exact Or.inl ⟨p, (List.cons.inj h).1⟩
    · rw [← List.cons_append, ← List.append_assoc] at heq
      obtain ⟨h1, h2⟩ := List.append_inj' heq rfl
      obtain rfl := (List.cons.inj h2).1
      exact Or.inr ⟨⟨pre, p, post', h1, fun x hx => hpost x (by simp [hx])⟩, hpost e (by simp)⟩
  · rintro (⟨p, rfl⟩ | ⟨⟨pre, p, post, rfl, hpost⟩, he⟩)
    · exact ⟨tr, p, [], rfl, by simp⟩
    · refine ⟨pre, p, post ++ [e], by simp, ?_⟩
      intro x hx
      rcases List.mem_append.mp hx with hx | hx
      · exact hpost x hx
      · obtain rfl := List.mem_singleton.mp hx
        exact he

theorem outstanding_quiet (he : e.Quiet) : Outstanding (tr ++ [e]) t ↔ Outstanding tr t := by
  rw [outstanding_concat]
  constructor
  · rintro (⟨p, rfl⟩ | h)
    · exact absurd rfl (he.1 p t)
    · exact h.1
  · exact fun h => Or.inr ⟨h, he.2 t⟩

end Outstanding

/-! ### The invariant -/

/-- What the call of the drainer knows about its slot: between its gate load and its store the gate is `PUBLISHED`. -/
def DrainerAt (N : Nat) (c : State Nat) : Drainer → Prop
  | .idle => True
  | .reading x _ | .releasing x _ => x < 2 ^ 31 ∧ c.gate (x % N) = (x + 1) % 2 ^ 31
  | .polling x | .advancing x _ | .skipping x | .fencing x | .fenceCas x | .fenceAdvancing x => x < 2 ^ 31

structure ReleaseInv (N : Nat) (c : State Nat) (tr : List Event) : Prop where
  head_lt : c.head < 2 ^ 31
  cursor_lt : c.cursor < 2 ^ 31
  lt : ∀ t, Outstanding tr t → t < 2 ^ 31
  gate : ∀ t, Outstanding tr t → c.gate (t % N) = t ∨ c.gate (t % N) = t + 2 ^ 31
  lap : ∀ t, Outstanding tr t → c.head ≠ t ∧ (c.head + 2 ^ 31 - t) % 2 ^ 31 ≤ N
  held : ∀ p t, (c.writers p).holds = some t → c.stopped p = false → Outstanding tr t
  owner : ∀ p q t, (c.writers p).holds = some t → (c.writers q).holds = some t → c.stopped p = false →
    c.stopped q = false → p = q
  hosts : ∀ k t, c.hosts k = .releasing t → Outstanding tr t ∧
    (∀ p, (c.writers p).holds = some t → c.stopped p = true) ∧ ∀ j, c.hosts j = .releasing t → j = k
  drainer : DrainerAt N c c.drainer

namespace ReleaseInv

variable {N : Nat} {c : State Nat} {tr : List Event}

/-- Two outstanding tickets have two slots. -/
theorem slot_owner (h : ReleaseInv N c tr) {t u : Nat} (ht : Outstanding tr t) (hu : Outstanding tr u)
    (hs : t % N = u % N) : t = u := by
  have h1 := h.gate t ht
  have h2 := h.gate u hu
  have h3 := h.lt t ht
  have h4 := h.lt u hu
  rw [hs] at h1
  omega

/-- The gate that the drainer is about to release is of no outstanding ticket. -/
theorem not_published (h : ReleaseInv N c tr) (hN : 2 ≤ N) (hd : N ∣ 2 ^ 31) {t x : Nat} (ht : Outstanding tr t)
    (hs : t % N = x % N) (hx : c.gate (x % N) = (x + 1) % 2 ^ 31) : False := by
  have h1 := h.gate t ht
  have h2 := h.lt t ht
  rw [hs, hx] at h1
  have h3 : (x + 1) % 2 ^ 31 = t := by omega
  have h4 : (x + 1) % 2 ^ 31 % N = (x + 1) % N := Nat.mod_mod_of_dvd _ hd
  rw [h3, hs, Nat.add_mod, Nat.mod_eq_of_lt (show 1 < N by omega)] at h4
  have h5 := Nat.mod_lt x (show 0 < N by omega)
  rcases Nat.lt_or_ge (x % N + 1) N with hlt | hge
  · rw [Nat.mod_eq_of_lt hlt] at h4
    omega
  · have h6 : x % N + 1 = N := by omega
    rw [h6, Nat.mod_self] at h4
    omega

/-- The drainer is not between its load and its store at the slot of an outstanding ticket. -/
theorem drainer_elsewhere (h : ReleaseInv N c tr) (hN : 2 ≤ N) (hd : N ∣ 2 ^ 31) {t : Nat} (ht : Outstanding tr t)
    (g : Nat) : DrainerAt N (c.setGate (t % N) g) c.drainer := by
  have hdr := h.drainer
  have hkeep : ∀ x, c.gate (x % N) = (x + 1) % 2 ^ 31 → (c.setGate (t % N) g).gate (x % N) = (x + 1) % 2 ^ 31 := by
    intro x hx
    rw [State.gate_setGate, if_neg, hx]
    exact fun hs => h.not_published hN hd ht hs.symm hx
  cases hc : c.drainer with
  | idle => trivial
  | reading x words =>
    rw [hc] at hdr
    exact ⟨hdr.1, hkeep x hdr.2⟩
  | releasing x words =>
    rw [hc] at hdr
    exact ⟨hdr.1, hkeep x hdr.2⟩
  | polling x => rw [hc] at hdr; exact hdr
  | advancing x words => rw [hc] at hdr; exact hdr
  | skipping x => rw [hc] at hdr; exact hdr
  | fencing x => rw [hc] at hdr; exact hdr
  | fenceCas x => rw [hc] at hdr; exact hdr
  | fenceAdvancing x => rw [hc] at hdr; exact hdr

/-! ### One move at a time -/

theorem quiet (h : ReleaseInv N c tr) {e : Event} (he : e.Quiet) : ReleaseInv N c (tr ++ [e]) := by
  have hq : ∀ t, Outstanding (tr ++ [e]) t ↔ Outstanding tr t := fun t => outstanding_quiet he
  exact ⟨h.head_lt, h.cursor_lt, fun t ht => h.lt t ((hq t).mp ht), fun t ht => h.gate t ((hq t).mp ht),
    fun t ht => h.lap t ((hq t).mp ht), fun p t hp hs => (hq t).mpr (h.held p t hp hs), h.owner,
    fun k t hk => ⟨(hq t).mpr (h.hosts k t hk).1, (h.hosts k t hk).2⟩, h.drainer⟩

/-- A writer that wins nothing. -/
theorem setWriter (h : ReleaseInv N c tr) {p : Nat} {w : Writer}
    (hw : ∀ t, w.holds = some t → (c.writers p).holds = some t) : ReleaseInv N (c.setWriter p w) tr := by
  have hold : ∀ q t, ((c.setWriter p w).writers q).holds = some t → (c.writers q).holds = some t := by
    intro q t hq
    simp only [State.setWriter_writers] at hq
    split at hq
    · rename_i heq
      exact heq ▸ hw t hq
    · exact hq
  exact ⟨h.head_lt, h.cursor_lt, h.lt, h.gate, h.lap, fun q t hq hs => h.held q t (hold q t hq) hs,
    fun q r t hq hr => h.owner q r t (hold q t hq) (hold r t hr),
    fun k t hk => ⟨(h.hosts k t hk).1, fun q hq => (h.hosts k t hk).2.1 q (hold q t hq), (h.hosts k t hk).2.2⟩, h.drainer⟩

theorem setCell (h : ReleaseInv N c tr) (i k v : Nat) : ReleaseInv N (c.setCell i k v) tr := by
  refine ⟨h.head_lt, h.cursor_lt, h.lt, fun t ht => ?_, h.lap, h.held, h.owner, h.hosts, ?_⟩
  · rw [State.gate_setCell]
    exact h.gate t ht
  · have hd := h.drainer
    show DrainerAt N _ c.drainer
    unfold DrainerAt at hd ⊢
    simp only [State.gate_setCell]
    exact hd

theorem stop (h : ReleaseInv N c tr) (p : Nat) :
    ReleaseInv N { c with stopped := fun q => if q = p then true else c.stopped q } tr := by
  have hrun : ∀ q, (if q = p then true else c.stopped q) = false → c.stopped q = false := by
    intro q hq
    split at hq
    · cases hq
    · exact hq
  refine ⟨h.head_lt, h.cursor_lt, h.lt, h.gate, h.lap, fun q t hq hs => h.held q t hq (hrun q hs),
    fun q r t hq hr hs hs' => h.owner q r t hq hr (hrun q hs) (hrun r hs'), fun k t hk => ?_, h.drainer⟩
  refine ⟨(h.hosts k t hk).1, fun q hq => ?_, (h.hosts k t hk).2.2⟩
  dsimp only
  split
  · rfl
  · exact (h.hosts k t hk).2.1 q hq

theorem setDrainer (h : ReleaseInv N c tr) {d : Drainer} (hd : DrainerAt N c d) : ReleaseInv N { c with drainer := d } tr :=
  ⟨h.head_lt, h.cursor_lt, h.lt, h.gate, h.lap, h.held, h.owner, h.hosts, hd⟩

/-- The cursor passes a ticket. -/
theorem pass (h : ReleaseInv N c tr) (x : Nat) :
    ReleaseInv N { c with cursor := nextTicket x, drainer := .idle } tr := by
  refine ⟨h.head_lt, ?_, h.lt, h.gate, h.lap, h.held, h.owner, h.hosts, trivial⟩
  show nextTicket x < 2 ^ 31
  rw [nextTicket, mask_eq]
  exact Nat.mod_lt _ (by decide)

/-- A ticket is claimed while its slot is free for it. -/
theorem claim (h : ReleaseInv N c tr) (hN : N < 2 ^ 31) (hd : N ∣ 2 ^ 31) {p : Nat}
    (hg : c.gate (c.head % N) = c.head) :
    ReleaseInv N { c.setWriter p (.claimed c.head) with head := nextTicket c.head } (tr ++ [.claimed p c.head]) := by
  have hlt := h.head_lt
  have hnext : nextTicket c.head = (c.head + 1) % 2 ^ 31 := by
    have := nextTicket_mod c.head
    rwa [Nat.mod_eq_of_lt hlt] at this
  have hout : ∀ t, Outstanding (tr ++ [.claimed p c.head]) t ↔ t = c.head ∨ Outstanding tr t := by
    intro t
    rw [outstanding_concat]
    simp only [Event.claimed.injEq, Event.ends, not_false_eq_true, and_true]
    exact or_congr_left ⟨fun ⟨q, hq⟩ => hq.2.symm, fun ht => ⟨p, rfl, ht.symm⟩⟩
  -- The gate that reads `FREE(head)` is of no ticket a lap behind.
  have hshort : ∀ t, Outstanding tr t → (c.head + 2 ^ 31 - t) % 2 ^ 31 ≠ N := by
    intro t ht hN'
    have h1 := h.gate t ht
    have h2 := h.lt t ht
    have h3 : c.head = (t + N) % 2 ^ 31 := by omega
    have h4 : c.head % N = t % N := by
      rw [h3, Nat.mod_mod_of_dvd _ hd, Nat.add_mod_right]
    rw [h4] at hg
    have := (h.lap t ht).1
    omega
  have hnew : ∀ q t, (if q = p then Writer.claimed c.head else c.writers q).holds = some t →
      (q = p ∧ t = c.head) ∨ (q ≠ p ∧ (c.writers q).holds = some t) := by
    intro q t hq
    split at hq
    · rename_i heq
      exact Or.inl ⟨heq, (Option.some.inj hq).symm⟩
    · rename_i hne
      exact Or.inr ⟨hne, hq⟩
  have hfree : ∀ q, (c.writers q).holds = some c.head → c.stopped q = false → False := fun q hq hs =>
    (h.lap _ (h.held q _ hq hs)).1 rfl
  refine ⟨?_, h.cursor_lt, fun t ht => ?_, fun t ht => ?_, fun t ht => ?_, fun q t hq hs => ?_, fun q r t hq hr hs hs' => ?_,
    fun k t hk => ?_, h.drainer⟩
  · show nextTicket c.head < 2 ^ 31
    rw [hnext]
    exact Nat.mod_lt _ (by decide)
  · rcases (hout t).mp ht with rfl | ht
    · exact hlt
    · exact h.lt t ht
  · rcases (hout t).mp ht with rfl | ht
    · exact Or.inl hg
    · exact h.gate t ht
  · show nextTicket c.head ≠ t ∧ (nextTicket c.head + 2 ^ 31 - t) % 2 ^ 31 ≤ N
    rw [hnext]
    rcases (hout t).mp ht with rfl | ht
    · have : 0 < N := Nat.pos_of_ne_zero fun h0 => by rw [h0] at hd; exact absurd (Nat.eq_zero_of_zero_dvd hd) (by decide)
      omega
    · have h1 := h.lap t ht
      have h2 := hshort t ht
      have h3 := h.lt t ht
      omega
  · rcases hnew q t hq with ⟨-, rfl⟩ | ⟨-, hq⟩
    · exact (hout _).mpr (Or.inl rfl)
    · exact (hout t).mpr (Or.inr (h.held q t hq hs))
  · rcases hnew q t hq with ⟨hqp, rfl⟩ | ⟨-, hq₀⟩
    · rcases hnew r _ hr with ⟨hrp, -⟩ | ⟨-, hr₀⟩
      · exact hqp.trans hrp.symm
      · exact (hfree r hr₀ hs').elim
    · rcases hnew r t hr with ⟨-, rfl⟩ | ⟨-, hr₀⟩
      · exact (hfree q hq₀ hs).elim
      · exact h.owner q r t hq₀ hr₀ hs hs'
  · obtain ⟨h1, h2, h3⟩ := h.hosts k t hk
    refine ⟨(hout t).mpr (Or.inr h1), fun q hq => ?_, h3⟩
    rcases hnew q t hq with ⟨-, rfl⟩ | ⟨-, hq⟩
    · exact absurd rfl (h.lap _ h1).1
    · exact h2 q hq

/-- The slot of an outstanding ticket changes hands, or its ticket is published: nobody else was at that slot. -/
theorem settle (h : ReleaseInv N c tr) (hN : 2 ≤ N) (hd : N ∣ 2 ^ 31) {t g : Nat} {e : Event} (ht : Outstanding tr t)
    (he : e.ends t) {c' : State Nat} (hgate : ∀ j, c'.gate j = (c.setGate (t % N) g).gate j) (hhead : c'.head = c.head)
    (hcursor : c'.cursor = c.cursor) (hdr : c'.drainer = c.drainer) (hst : c'.stopped = c.stopped)
    (hw : ∀ q u, (c'.writers q).holds = some u → (c.writers q).holds = some u)
    (hw' : ∀ q, (c'.writers q).holds = some t → c.stopped q = true)
    (hh : ∀ k u, c'.hosts k = .releasing u → c.hosts k = .releasing u ∧ u ≠ t) : ReleaseInv N c' (tr ++ [e]) := by
  have hnew : ∀ p u, e ≠ .claimed p u := by
    intro p u heq
    rw [heq] at he
    exact he
  have hout : ∀ u, Outstanding (tr ++ [e]) u ↔ Outstanding tr u ∧ u ≠ t := by
    intro u
    rw [outstanding_concat]
    constructor
    · rintro (⟨p, hp⟩ | ⟨hu, hne⟩)
      · exact absurd hp (hnew p u)
      · exact ⟨hu, fun hut => hne (hut ▸ he)⟩
    · rintro ⟨hu, hne⟩
      refine Or.inr ⟨hu, fun hends => hne ?_⟩
      cases e <;> simp only [Event.ends] at he hends
      · exact hends.symm.trans he
      · exact hends.symm.trans he
  refine ⟨hhead ▸ h.head_lt, hcursor ▸ h.cursor_lt, fun u hu => h.lt u ((hout u).mp hu).1, fun u hu => ?_,
    fun u hu => hhead ▸ h.lap u ((hout u).mp hu).1, fun q u hq hs => ?_, fun q r u hq hr hs hs' => ?_, fun k u hk => ?_, ?_⟩
  · obtain ⟨hu, hne⟩ := (hout u).mp hu
    rw [hgate, State.gate_setGate, if_neg]
    · exact h.gate u hu
    · exact fun hs => hne (h.slot_owner hu ht hs)
  · rw [hst] at hs
    refine (hout u).mpr ⟨h.held q u (hw q u hq) hs, ?_⟩
    rintro rfl
    exact absurd (hw' q hq) (by simp [hs])
  · rw [hst] at hs hs'
    exact h.owner q r u (hw q u hq) (hw r u hr) hs hs'
  · obtain ⟨hk', hne⟩ := hh k u hk
    obtain ⟨h1, h2, h3⟩ := h.hosts k u hk'
    exact ⟨(hout u).mpr ⟨h1, hne⟩, fun q hq => hst ▸ h2 q (hw q u hq), fun j hj => h3 j (hh j u hj).1⟩
  · have := h.drainer_elsewhere hN hd ht g
    rw [hdr]
    unfold DrainerAt at this ⊢
    simp only [hgate]
    exact this

/-- A running writer publishes its ticket or gives its slot away. -/
theorem settleWriter (h : ReleaseInv N c tr) (hN : 2 ≤ N) (hd : N ∣ 2 ^ 31) {p t : Nat} {e : Event}
    (hp : c.stopped p = false) (hholds : (c.writers p).holds = some t) (he : e.ends t) (g : Nat) :
    ReleaseInv N ((c.setGate (t % N) g).setWriter p .idle) (tr ++ [e]) := by
  refine h.settle hN hd (h.held p t hholds hp) he (g := g) (fun j => rfl) rfl rfl rfl rfl ?_ ?_ ?_
  · intro q u hq
    simp only [State.setWriter_writers, State.setGate_writers] at hq
    split at hq
    · cases hq
    · exact hq
  · intro q hq
    simp only [State.setWriter_writers, State.setGate_writers] at hq
    split at hq
    · cases hq
    · rename_i hne
      by_contra hst
      exact hne (h.owner q p t hq hholds (by simpa using hst) hp)
  · intro k u hk
    refine ⟨hk, ?_⟩
    rintro rfl
    exact absurd ((h.hosts k u hk).2.1 p hholds) (by simp [hp])

end ReleaseInv

/-! ### Steps -/

/-- What the host keeps to: it names a ticket whose gate reads `FREE` or `FENCED` only while the ticket is outstanding, its
writer has stopped, and no other thread is releasing it. -/
def HostKeeps (N : Nat) (c : State Nat) (tr : List Event) : Action → Prop
  | .forceRelease _ ticket =>
    let t := ticket &&& TICKET_MASK
    c.gate (t % N) = t ∨ c.gate (t % N) = t ||| FENCED_BIT →
      Outstanding tr t ∧ (∀ p, (c.writers p).holds = some t → c.stopped p = true) ∧ ∀ k, c.hosts k ≠ .releasing t
  | _ => True

def Minds (N : Nat) (c : State Nat) (tr : List Event) (a : Action) : Prop := ClaimsFree N c a ∧ HostKeeps N c tr a

namespace ReleaseInv

variable {N : Nat} {c c' : State Nat} {tr evs : List Event}

theorem stepWriter (h : ReleaseInv N c tr) (hN : 2 ≤ N) (hlt : N < 2 ^ 31) (hd : N ∣ 2 ^ 31) {p : Nat}
    (hp : c.stopped p = false) (ha : ClaimsFree N c (.writer p))
    (hs : Ring.stepWriter (u32 N) N c p = some (c', evs)) : ReleaseInv N c' (tr ++ evs) := by
  have hnil : ∀ {c₁ : State Nat}, ReleaseInv N c₁ tr → ReleaseInv N c₁ (tr ++ []) := fun h₁ => by rwa [List.append_nil]
  have hidle : ∀ {e : Event}, e.Quiet → ReleaseInv N (c.setWriter p .idle) (tr ++ [e]) := fun he =>
    (h.setWriter (w := .idle) (by simp [Writer.holds])).quiet he
  simp only [Ring.stepWriter] at hs
  cases hw : c.writers p with
  | idle => simp [hw] at hs
  | claimed t => simp [hw] at hs
  | headLoaded t =>
    simp only [hw] at hs
    split at hs <;> cases hs
    · exact hidle ⟨by simp, by simp [Event.ends]⟩
    · exact hnil (h.setWriter (by simp [Writer.holds]))
  | gateMatched t =>
    simp only [hw] at hs
    split at hs
    · rename_i hhead
      cases hs
      obtain rfl := hhead
      exact h.claim hlt hd (ha _ hw rfl)
    · cases hs
      exact hidle ⟨by simp, by simp [Event.ends]⟩
  | storing t payload i =>
    have hholds : (c.writers p).holds = some t := by rw [hw]; rfl
    simp only [hw] at hs
    split at hs
    · cases hs
      exact hnil ((h.setCell _ _ _).setWriter (by simp [hw, Writer.holds]))
    · split at hs <;> cases hs
      · exact h.settleWriter hN hd hp hholds (show Event.ends t (.published p t payload) from rfl) _
      · exact hnil (h.setWriter (by simp [hw, Writer.holds]))
  | reloading t payload =>
    simp only [hw] at hs
    split at hs
    · cases hs
      exact hnil (h.setWriter (by simp [hw, Writer.holds]))
    · split at hs <;> cases hs
      · exact hnil (h.setWriter (by simp [hw, Writer.holds]))
      · exact hidle ⟨by simp, by simp [Event.ends]⟩
  | selfReleasing t payload =>
    have hholds : (c.writers p).holds = some t := by rw [hw]; rfl
    simp only [hw] at hs
    split at hs <;> cases hs
    · have hfreed := h.settleWriter hN hd hp hholds (show Event.ends t (.freed t) from rfl) (releaseGate N t)
      have := hfreed.quiet (e := .fenced p t) ⟨by simp, by simp [Event.ends]⟩
      rwa [List.append_assoc] at this
    · exact hidle ⟨by simp, by simp [Event.ends]⟩

theorem stepDrainer (h : ReleaseInv N c tr) (hN : 2 ≤ N) (hd : N ∣ 2 ^ 31)
    (hs : Ring.stepDrainer (u32 N) N c = some (c', evs)) : ReleaseInv N c' (tr ++ evs) := by
  have hnil : ∀ {c₁ : State Nat}, ReleaseInv N c₁ tr → ReleaseInv N c₁ (tr ++ []) := fun h₁ => by rwa [List.append_nil]
  have hdr := h.drainer
  simp only [Ring.stepDrainer] at hs
  cases hc : c.drainer with
  | idle => simp [hc] at hs
  | polling x =>
    rw [hc] at hdr
    simp only [hc] at hs
    split at hs
    · rename_i hg
      cases hs
      have hnext : publishedGate x = (x + 1) % 2 ^ 31 := by
        have := nextTicket_mod x
        rwa [Nat.mod_eq_of_lt hdr] at this
      exact hnil (h.setDrainer ⟨hdr, hnext ▸ hg⟩)
    · split at hs <;> cases hs
      · exact hnil (h.setDrainer hdr)
      · exact (h.setDrainer (d := .idle) trivial).quiet ⟨by simp, by simp [Event.ends]⟩
  | reading x words =>
    rw [hc] at hdr
    simp only [hc] at hs
    cases hs
    refine hnil (h.setDrainer ?_)
    split
    · exact hdr
    · exact hdr
  | releasing x words =>
    rw [hc] at hdr
    simp only [hc] at hs
    cases hs
    have hnone : ∀ t, Outstanding tr t → t % N ≠ x % N := fun t ht hs => h.not_published hN hd ht hs hdr.2
    have hout : ∀ t, Outstanding (tr ++ [.freed x]) t ↔ Outstanding tr t := by
      intro t
      rw [outstanding_concat]
      simp only [reduceCtorEq, exists_false, false_or, Event.ends, and_iff_left_iff_imp]
      rintro ht rfl
      exact hnone _ ht rfl
    refine ⟨h.head_lt, h.cursor_lt, fun t ht => h.lt t ((hout t).mp ht), fun t ht => ?_, fun t ht => h.lap t ((hout t).mp ht),
      fun p t hp hs => (hout t).mpr (h.held p t hp hs), h.owner,
      fun k t hk => ⟨(hout t).mpr (h.hosts k t hk).1, (h.hosts k t hk).2⟩, hdr.1⟩
    have ht' := (hout t).mp ht
    show (c.setGate (x % N) _).gate (t % N) = t ∨ (c.setGate (x % N) _).gate (t % N) = t + 2 ^ 31
    rw [State.gate_setGate, if_neg (hnone t ht')]
    exact h.gate t ht'
  | advancing x words =>
    simp only [hc] at hs
    cases hs
    exact (h.pass x).quiet ⟨by simp, by simp [Event.ends]⟩
  | skipping x =>
    simp only [hc] at hs
    cases hs
    exact (h.pass x).quiet ⟨by simp, by simp [Event.ends]⟩
  | fencing x =>
    rw [hc] at hdr
    simp only [hc] at hs
    split at hs <;> cases hs
    · exact (h.setDrainer (d := .idle) trivial).quiet ⟨by simp, by simp [Event.ends]⟩
    · exact hnil (h.setDrainer hdr)
  | fenceCas x =>
    rw [hc] at hdr
    simp only [hc] at hs
    split at hs
    · rename_i hg
      cases hs
      have hf : (u32 N).fenced x = x + 2 ^ 31 := by
        have := fencedGate_mod x
        rwa [Nat.mod_eq_of_lt hdr] at this
      refine hnil ⟨h.head_lt, h.cursor_lt, h.lt, fun t ht => ?_, h.lap, h.held, h.owner, h.hosts, hdr⟩
      show (c.setGate (x % N) _).gate (t % N) = t ∨ (c.setGate (x % N) _).gate (t % N) = t + 2 ^ 31
      have hgate := h.gate t ht
      rw [State.gate_setGate]
      split
      · rename_i heq
        have hlt := h.lt t ht
        have hx : x < 2 ^ 31 := hdr
        rw [heq] at hgate
        have hg' : c.gate (x % N) = x := hg
        rw [hf]
        omega
      · exact hgate
    · cases hs
      exact (h.setDrainer (d := .idle) trivial).quiet ⟨by simp, by simp [Event.ends]⟩
  | fenceAdvancing x =>
    simp only [hc] at hs
    cases hs
    exact (h.pass x).quiet ⟨by simp, by simp [Event.ends]⟩

/-- The store of a release finds the gate as the load did. -/
theorem release (h : ReleaseInv N c tr) (hN : 2 ≤ N) (hd : N ∣ 2 ^ 31) {k t : Nat} (hk : c.hosts k = .releasing t) :
    ReleaseInv N ((c.setGate (t % N) (releaseGate N t)).setHost k .idle) (tr ++ [.freed t, .released t]) := by
  obtain ⟨ht, hstop, hone⟩ := h.hosts k t hk
  have hhosts : ∀ j u, ((c.setGate (t % N) (releaseGate N t)).setHost k .idle).hosts j = .releasing u →
      c.hosts j = .releasing u ∧ u ≠ t := by
    intro j u hj
    simp only [State.setHost_hosts, State.setGate_hosts] at hj
    split at hj
    · cases hj
    · rename_i hne
      refine ⟨hj, ?_⟩
      rintro rfl
      exact hne (hone j hj)
  have hfreed : ReleaseInv N ((c.setGate (t % N) (releaseGate N t)).setHost k .idle) (tr ++ [.freed t]) :=
    h.settle hN hd ht (show Event.ends t (.freed t) from rfl) (g := releaseGate N t) (fun j => rfl) rfl rfl rfl rfl
      (fun _ _ hq => hq) (fun q hq => hstop q hq) hhosts
  have := hfreed.quiet (e := .released t) ⟨by simp, by simp [Event.ends]⟩
  rwa [List.append_assoc] at this

/-- The load of a release that goes on to its store. -/
theorem beginRelease (h : ReleaseInv N c tr) {k t : Nat} (hidle : c.hosts k = .idle) (ht : Outstanding tr t)
    (hstop : ∀ p, (c.writers p).holds = some t → c.stopped p = true) (hone : ∀ j, c.hosts j ≠ .releasing t) :
    ReleaseInv N (c.setHost k (.releasing t)) tr := by
  refine ⟨h.head_lt, h.cursor_lt, h.lt, h.gate, h.lap, h.held, h.owner, fun j u hj => ?_, h.drainer⟩
  have hcase : ∀ i v, (c.setHost k (.releasing t)).hosts i = .releasing v →
      (i = k ∧ v = t) ∨ (c.hosts i = .releasing v ∧ v ≠ t) := by
    intro i v hi
    simp only [State.setHost_hosts] at hi
    split at hi
    · rename_i heq
      exact Or.inl ⟨heq, (Host.releasing.inj hi).symm⟩
    · refine Or.inr ⟨hi, ?_⟩
      rintro rfl
      exact hone i hi
  rcases hcase j u hj with ⟨rfl, rfl⟩ | ⟨hj', hne⟩
  · refine ⟨ht, hstop, fun i hi => ?_⟩
    rcases hcase i u hi with ⟨rfl, -⟩ | ⟨-, hne⟩
    · rfl
    · exact absurd rfl hne
  · obtain ⟨h1, h2, h3⟩ := h.hosts j u hj'
    refine ⟨h1, h2, fun i hi => ?_⟩
    rcases hcase i u hi with ⟨-, heq⟩ | ⟨hi', -⟩
    · exact absurd heq hne
    · exact h3 i hi'

theorem step (h : ReleaseInv N c tr) (hN : 2 ≤ N) (hlt : N < 2 ^ 31) (hd : N ∣ 2 ^ 31) {a : Action} (ha : Minds N c tr a)
    (hs : Ring.step (u32 N) N c a = some (c', evs)) : ReleaseInv N c' (tr ++ evs) := by
  have hnil : ∀ {c₁ : State Nat}, ReleaseInv N c₁ tr → ReleaseInv N c₁ (tr ++ []) := fun h₁ => by rwa [List.append_nil]
  cases a with
  | claim p =>
    simp only [Ring.step] at hs
    split at hs <;> cases hs
    exact hnil (h.setWriter (by simp [Writer.holds]))
  | publish p payload =>
    simp only [Ring.step] at hs
    split at hs
    · rename_i t hw
      split at hs <;> cases hs
      exact hnil (h.setWriter (by simp [hw, Writer.holds]))
    · cases hs
  | writer p =>
    simp only [Ring.step] at hs
    split at hs
    · cases hs
    · rename_i hp
      exact h.stepWriter hN hlt hd (by simpa using hp) ha.1 hs
  | stop p =>
    cases hs
    exact hnil (h.stop p)
  | poll =>
    simp only [Ring.step] at hs
    split at hs <;> cases hs
    exact hnil (h.setDrainer h.cursor_lt)
  | fence =>
    simp only [Ring.step] at hs
    split at hs <;> cases hs
    exact hnil (h.setDrainer h.cursor_lt)
  | drainer => exact h.stepDrainer hN hd hs
  | forceRelease k ticket =>
    simp only [Ring.step, Ring.beginRelease] at hs
    split at hs
    · rename_i hidle
      split at hs
      · rename_i hg
        cases hs
        obtain ⟨ht, hstop, hone⟩ := ha.2 hg
        exact hnil (h.beginRelease hidle ht hstop hone)
      · split at hs <;> cases hs
        · exact h.quiet ⟨by simp, by simp [Event.ends]⟩
        · exact h.quiet ⟨by simp, by simp [Event.ends]⟩
    · cases hs
  | host k =>
    simp only [Ring.step] at hs
    split at hs <;> cases hs
    rename_i t hk
    exact h.release hN hd hk

end ReleaseInv

/-! ### Whole runs -/

section Runs

variable {N seed : Nat} {c c' : State Nat} {tr evs : List Event}

end Runs

end Horton.Ring
