import Horton.Lib.Bytes

/-!
# Programs over a block device

A block device answers every call in one of four ways (`Fate`): it succeeds, it returns an error, the power is cut
during the call, or the caller drops the pending future.  In the last three cases a write has put some prefix of the
new block over the old one.  `Device.fates` lists the answers still to come; when it is used up every call succeeds.

`Prog σ ε α` is a program with state `σ` over such a device.  A cut and a drop end it on the spot; an error is an
ordinary result that the program may handle (`Prog.attempt`).  `Prog.wp` is the weakest precondition of a program, and
the `wp_` lemmas compute it through sequencing and the device calls.

`Device.writes` is a ghost record of every block write: the block, the data handed over, and what the block held when
the call ended.
-/

namespace BlockDev

inductive Fate
  | ok
  | fail (landed : Nat)
  | cut (landed : Nat)
  | drop (landed : Nat)
  deriving DecidableEq, Repr

/-- One block write: the data handed to the device and the content of the block afterwards. -/
structure Write where
  block : Nat
  data : Bytes
  after : Bytes
  deriving DecidableEq, Repr

structure Device where
  blocks : Nat → Bytes
  fates : List Fate
  writes : List Write

namespace Device

/-- The answer to the next call. -/
def fate (d : Device) : Fate := d.fates.headD .ok

def advance (d : Device) : Device := { d with fates := d.fates.tail }

/-- Block `id` now holds `after`, following a write of `data`. -/
def put (d : Device) (id : Nat) (data after : Bytes) : Device :=
  { d with blocks := Function.update d.blocks id after, writes := d.writes ++ [⟨id, data, after⟩] }

@[simp] theorem advance_blocks (d : Device) : d.advance.blocks = d.blocks := rfl

@[simp] theorem advance_writes (d : Device) : d.advance.writes = d.writes := rfl

@[simp] theorem put_fates (d : Device) (id : Nat) (data after : Bytes) :
    (d.put id data after).fates = d.fates := rfl

@[simp] theorem put_writes (d : Device) (id : Nat) (data after : Bytes) :
    (d.put id data after).writes = d.writes ++ [⟨id, data, after⟩] := rfl

@[simp] theorem put_blocks_same (d : Device) (id : Nat) (data after : Bytes) :
    (d.put id data after).blocks id = after := by simp [put]

theorem put_blocks_ne (d : Device) {id j : Nat} (data after : Bytes) (h : j ≠ id) :
    (d.put id data after).blocks j = d.blocks j := by simp [put, h]

theorem mem_advance_fates {d : Device} {f : Fate} (h : f ∈ d.advance.fates) : f ∈ d.fates :=
  List.mem_of_mem_tail h

theorem fate_mem_or_ok (d : Device) : d.fate = .ok ∨ d.fate ∈ d.fates := by
  unfold fate
  cases d.fates with
  | nil => exact Or.inl rfl
  | cons f fs => exact Or.inr (by simp)

theorem mem_fates_of_fate {d : Device} {f : Fate} (h : d.fate = f) (hf : f ≠ .ok) : f ∈ d.fates := by
  rcases d.fate_mem_or_ok with ho | hm
  · exact absurd (h.symm.trans ho) hf
  · exact h ▸ hm

end Device

/-- The program that led from `d` to `d'` only read. -/
def ReadsOnly (d d' : Device) : Prop := d'.blocks = d.blocks ∧ d'.writes = d.writes ∧ d'.fates <:+ d.fates

theorem ReadsOnly.refl (d : Device) : ReadsOnly d d := ⟨rfl, rfl, List.suffix_refl _⟩

theorem ReadsOnly.trans {d d' d'' : Device} (h : ReadsOnly d d') (h' : ReadsOnly d' d'') : ReadsOnly d d'' :=
  ⟨h'.1.trans h.1, h'.2.1.trans h.2.1, h'.2.2.trans h.2.2⟩

theorem readsOnly_advance (d : Device) : ReadsOnly d d.advance := ⟨rfl, rfl, List.tail_suffix _⟩

theorem ReadsOnly.advance_trans {d d' : Device} (h : ReadsOnly d.advance d') : ReadsOnly d d' :=
  (readsOnly_advance d).trans h

/-- No block with `P` was written on the way from `d` to `d'`. -/
structure Keeps (P : Nat → Prop) (d d' : Device) : Prop where
  blocks : ∀ j, P j → d'.blocks j = d.blocks j
  writes : ∀ w ∈ d'.writes, P w.block → w ∈ d.writes
  logged : ∀ w ∈ d.writes, w ∈ d'.writes

namespace Keeps

variable {P Q : Nat → Prop} {d d' d'' : Device}

theorem refl (P : Nat → Prop) (d : Device) : Keeps P d d := ⟨fun _ _ => rfl, fun _ h _ => h, fun _ h => h⟩

theorem trans (h : Keeps P d d') (h' : Keeps P d' d'') : Keeps P d d'' where
  blocks j hj := (h'.blocks j hj).trans (h.blocks j hj)
  writes w hw hp := h.writes w (h'.writes w hw hp) hp
  logged w hw := h'.logged w (h.logged w hw)

theorem mono (h : Keeps P d d') (hq : ∀ j, Q j → P j) : Keeps Q d d' where
  blocks j hj := h.blocks j (hq j hj)
  writes w hw hp := h.writes w hw (hq _ hp)
  logged := h.logged

/-- The answers of the device do not matter. -/
theorem of_eq (P : Nat → Prop) (hb : d'.blocks = d.blocks) (hw : d'.writes = d.writes) : Keeps P d d' :=
  ⟨fun j _ => congrFun hb j, fun _ h _ => hw ▸ h, fun _ h => hw ▸ h⟩

theorem advance (h : Keeps P d d') : Keeps P d d'.advance := ⟨h.blocks, h.writes, h.logged⟩

theorem put (h : Keeps P d d') {id : Nat} (hid : ¬ P id) (data after : Bytes) : Keeps P d (d'.put id data after) where
  blocks j hj := by
    rw [Device.put_blocks_ne _ _ _ (by rintro rfl; exact hid hj)]
    exact h.blocks j hj
  writes w hw hp := by
    rw [Device.put_writes] at hw
    rcases List.mem_append.mp hw with hw | hw
    · exact h.writes w hw hp
    · obtain rfl := List.mem_singleton.mp hw
      exact absurd hp hid
  logged w hw := List.mem_append_left _ (h.logged w hw)

end Keeps

theorem ReadsOnly.keeps {d d' : Device} (h : ReadsOnly d d') (P : Nat → Prop) : Keeps P d d' := .of_eq P h.1 h.2.1

/-- How a program ends. -/
inductive Outcome (ε α : Type)
  | ok (a : α)
  | err (e : ε)
  | cut
  | dropped
  deriving DecidableEq, Repr

def Prog (σ ε α : Type) := σ → Device → Outcome ε α × σ × Device

namespace Prog

variable {σ τ ε α β : Type}

/-- Passes a value on and lets an error, a cut or a drop end the program. -/
def bind (p : Prog σ ε α) (f : α → Prog σ ε β) : Prog σ ε β := fun s d =>
  match p s d with
  | (.ok a, s', d') => f a s' d'
  | (.err e, s', d') => (.err e, s', d')
  | (.cut, s', d') => (.cut, s', d')
  | (.dropped, s', d') => (.dropped, s', d')

instance : Monad (Prog σ ε) where
  pure a := fun s d => (.ok a, s, d)
  bind := Prog.bind

def get : Prog σ ε σ := fun s d => (.ok s, s, d)

def set (s : σ) : Prog σ ε Unit := fun _ d => (.ok (), s, d)

def modify (f : σ → σ) : Prog σ ε Unit := fun s d => (.ok (), f s, d)

def throw (e : ε) : Prog σ ε α := fun s d => (.err e, s, d)

/-- Runs a program on a state of its own and returns that state with the value. -/
def runLocal (t : τ) (p : Prog τ ε α) : Prog σ ε (α × τ) := fun s d =>
  match p t d with
  | (.ok a, t', d') => (.ok (a, t'), s, d')
  | (.err e, _, d') => (.err e, s, d')
  | (.cut, _, d') => (.cut, s, d')
  | (.dropped, _, d') => (.dropped, s, d')

/-- A pure computation that may fail. -/
def ofExcept : Except ε α → Prog σ ε α
  | .ok a => fun s d => (.ok a, s, d)
  | .error e => fun s d => (.err e, s, d)

/-- Runs `p` and returns its error as a value. -/
def attempt (p : Prog σ ε α) : Prog σ ε (Except ε α) := fun s d =>
  match p s d with
  | (.ok a, s', d') => (.ok (.ok a), s', d')
  | (.err e, s', d') => (.ok (.error e), s', d')
  | (.cut, s', d') => (.cut, s', d')
  | (.dropped, s', d') => (.dropped, s', d')

/-- Runs a program on a component of the state. -/
def zoom (get : σ → τ) (set : τ → σ → σ) (p : Prog τ ε α) : Prog σ ε α := fun s d =>
  let r := p (get s) d
  (r.1, set r.2.1 s, r.2.2)

/-- A program that only reads was stopped by the device: its error, a cut or a drop was among the answers to come. -/
def Fault (e : ε) (d : Device) : Outcome ε Unit → Device → Prop
  | .ok _, _ => False
  | .err e', d' => e' = e ∧ ReadsOnly d d' ∧ ∃ k, Fate.fail k ∈ d.fates
  | .cut, d' => ReadsOnly d d' ∧ ∃ k, Fate.cut k ∈ d.fates
  | .dropped, d' => ReadsOnly d d' ∧ ∃ k, Fate.drop k ∈ d.fates

theorem Fault.mono {e : ε} {d d' : Device} {o : Outcome ε Unit} {d'' : Device} (h : Fault e d' o d'')
    (hd : ReadsOnly d d') : Fault e d o d'' := by
  cases o with
  | ok => exact h
  | err e' =>
    obtain ⟨rfl, hr, k, hk⟩ := h
    exact ⟨rfl, hd.trans hr, k, hd.2.2.subset hk⟩
  | cut =>
    obtain ⟨hr, k, hk⟩ := h
    exact ⟨hd.trans hr, k, hd.2.2.subset hk⟩
  | dropped =>
    obtain ⟨hr, k, hk⟩ := h
    exact ⟨hd.trans hr, k, hd.2.2.subset hk⟩

/-! ### Device calls -/

def readBlock (e : ε) (id : Nat) : Prog σ ε Bytes := fun s d =>
  match d.fate with
  | .ok => (.ok (d.blocks id), s, d.advance)
  | .fail _ => (.err e, s, d.advance)
  | .cut _ => (.cut, s, d.advance)
  | .drop _ => (.dropped, s, d.advance)

def writeBlock (e : ε) (id : Nat) (data : Bytes) : Prog σ ε Unit := fun s d =>
  match d.fate with
  | .ok => (.ok (), s, (d.put id data data).advance)
  | .fail k => (.err e, s, (d.put id data (Bytes.tear k data (d.blocks id))).advance)
  | .cut k => (.cut, s, (d.put id data (Bytes.tear k data (d.blocks id))).advance)
  | .drop k => (.dropped, s, (d.put id data (Bytes.tear k data (d.blocks id))).advance)

/-- A barrier: blocks written before it stay; it moves no data itself. -/
def flush (e : ε) : Prog σ ε Unit := fun s d =>
  match d.fate with
  | .ok => (.ok (), s, d.advance)
  | .fail _ => (.err e, s, d.advance)
  | .cut _ => (.cut, s, d.advance)
  | .drop _ => (.dropped, s, d.advance)

/-! ### Weakest preconditions -/

/-- `Q` holds of the way `p` ends and of the state and device it leaves. -/
def wp (p : Prog σ ε α) (Q : Outcome ε α → σ → Device → Prop) (s : σ) (d : Device) : Prop :=
  Q (p s d).1 (p s d).2.1 (p s d).2.2

theorem wp_mono {p : Prog σ ε α} {Q R : Outcome ε α → σ → Device → Prop} {s : σ} {d : Device}
    (h : p.wp Q s d) (hQR : ∀ o s' d', Q o s' d' → R o s' d') : p.wp R s d := hQR _ _ _ h

/-- Names the result of a run. -/
theorem wp_of_run {p : Prog σ ε α} {Q : Outcome ε α → σ → Device → Prop} {s : σ} {d : Device}
    (h : ∀ o s' d', p s d = (o, s', d') → Q o s' d') : p.wp Q s d := h _ _ _ rfl

theorem wp_run {p : Prog σ ε α} {Q : Outcome ε α → σ → Device → Prop} {s s' : σ} {d d' : Device} {o : Outcome ε α}
    (h : p.wp Q s d) (hrun : p s d = (o, s', d')) : Q o s' d' := by
  rw [wp, hrun] at h
  exact h

@[simp] theorem wp_pure (a : α) (Q : Outcome ε α → σ → Device → Prop) (s : σ) (d : Device) :
    (pure a : Prog σ ε α).wp Q s d ↔ Q (.ok a) s d := Iff.rfl

/-- What has to hold after the first of two programs: `K` where it returns a value, `Q` where it ends otherwise. -/
def andThen (K : α → σ → Device → Prop) (Q : Outcome ε β → σ → Device → Prop) : Outcome ε α → σ → Device → Prop
  | .ok a => K a
  | .err e => Q (.err e)
  | .cut => Q .cut
  | .dropped => Q .dropped

@[simp] theorem andThen_ok (K : α → σ → Device → Prop) (Q : Outcome ε β → σ → Device → Prop) (a : α) :
    andThen K Q (.ok a) = K a := rfl

@[simp] theorem andThen_err (K : α → σ → Device → Prop) (Q : Outcome ε β → σ → Device → Prop) (e : ε) :
    andThen K Q (.err e) = Q (.err e) := rfl

@[simp] theorem andThen_cut (K : α → σ → Device → Prop) (Q : Outcome ε β → σ → Device → Prop) :
    andThen K Q .cut = Q .cut := rfl

@[simp] theorem andThen_dropped (K : α → σ → Device → Prop) (Q : Outcome ε β → σ → Device → Prop) :
    andThen K Q .dropped = Q .dropped := rfl

theorem wp_bind (p : Prog σ ε α) (f : α → Prog σ ε β) (Q : Outcome ε β → σ → Device → Prop) (s : σ) (d : Device) :
    (p >>= f).wp Q s d ↔ p.wp (andThen (fun a => (f a).wp Q) Q) s d := by
  show (Prog.bind p f).wp Q s d ↔ _
  unfold wp Prog.bind
  rcases p s d with ⟨o, s', d'⟩
  cases o <;> exact Iff.rfl

/-- For a property of the returned value alone, what the first program does is of no concern. -/
theorem wp_bind_result {p : Prog σ ε α} {f : α → Prog σ ε β} {P : β → Prop} {s : σ} {d : Device}
    (hf : ∀ a s' d', (f a).wp (fun o _ _ => ∀ b, o = .ok b → P b) s' d') :
    (p >>= f).wp (fun o _ _ => ∀ b, o = .ok b → P b) s d := by
  rw [wp_bind]
  unfold wp
  cases (p s d).1 with
  | ok a => exact hf a _ _
  | _ => exact fun b hb => by cases hb

@[simp] theorem wp_get (Q : Outcome ε σ → σ → Device → Prop) (s : σ) (d : Device) :
    (get : Prog σ ε σ).wp Q s d ↔ Q (.ok s) s d := Iff.rfl

@[simp] theorem wp_set (t : σ) (Q : Outcome ε Unit → σ → Device → Prop) (s : σ) (d : Device) :
    (set t : Prog σ ε Unit).wp Q s d ↔ Q (.ok ()) t d := Iff.rfl

@[simp] theorem wp_modify (f : σ → σ) (Q : Outcome ε Unit → σ → Device → Prop) (s : σ) (d : Device) :
    (modify f : Prog σ ε Unit).wp Q s d ↔ Q (.ok ()) (f s) d := Iff.rfl

@[simp] theorem wp_throw (e : ε) (Q : Outcome ε α → σ → Device → Prop) (s : σ) (d : Device) :
    (throw e : Prog σ ε α).wp Q s d ↔ Q (.err e) s d := Iff.rfl

@[simp] theorem wp_ofExcept_ok (a : α) (Q : Outcome ε α → σ → Device → Prop) (s : σ) (d : Device) :
    (ofExcept (.ok a) : Prog σ ε α).wp Q s d ↔ Q (.ok a) s d := Iff.rfl

@[simp] theorem wp_ofExcept_error (e : ε) (Q : Outcome ε α → σ → Device → Prop) (s : σ) (d : Device) :
    (ofExcept (.error e) : Prog σ ε α).wp Q s d ↔ Q (.err e) s d := Iff.rfl

theorem wp_attempt (p : Prog σ ε α) (Q : Outcome ε (Except ε α) → σ → Device → Prop) (s : σ) (d : Device) :
    (attempt p).wp Q s d ↔ p.wp (fun o s' d' => match o with
      | .ok a => Q (.ok (.ok a)) s' d'
      | .err e => Q (.ok (.error e)) s' d'
      | .cut => Q .cut s' d'
      | .dropped => Q .dropped s' d') s d := by
  unfold wp attempt
  rcases p s d with ⟨o, s', d'⟩
  cases o <;> exact Iff.rfl

theorem wp_runLocal (t : τ) (p : Prog τ ε α) (Q : Outcome ε (α × τ) → σ → Device → Prop) (s : σ) (d : Device) :
    (runLocal t p).wp Q s d ↔ p.wp (fun o t' d' => match o with
      | .ok a => Q (.ok (a, t')) s d'
      | .err e => Q (.err e) s d'
      | .cut => Q .cut s d'
      | .dropped => Q .dropped s d') t d := by
  unfold wp runLocal
  rcases p t d with ⟨o, t', d'⟩
  cases o <;> exact Iff.rfl

theorem wp_zoom (get : σ → τ) (set : τ → σ → σ) (p : Prog τ ε α) (Q : Outcome ε α → σ → Device → Prop)
    (s : σ) (d : Device) :
    (zoom get set p).wp Q s d ↔ p.wp (fun o t d' => Q o (set t s) d') (get s) d := Iff.rfl

theorem wp_readBlock (e : ε) (id : Nat) (Q : Outcome ε Bytes → σ → Device → Prop) (s : σ) (d : Device) :
    (readBlock e id).wp Q s d ↔ match d.fate with
      | .ok => Q (.ok (d.blocks id)) s d.advance
      | .fail _ => Q (.err e) s d.advance
      | .cut _ => Q .cut s d.advance
      | .drop _ => Q .dropped s d.advance := by
  unfold wp readBlock
  cases d.fate <;> exact Iff.rfl

/-- A read gives the block or is stopped by the device. -/
theorem readBlock_spec (e : ε) (id : Nat) (s : σ) (d : Device) :
    (readBlock e id).wp (fun o s' d' => s' = s ∧ match o with
      | .ok b => b = d.blocks id ∧ ReadsOnly d d'
      | .err e' => Fault e d (.err e') d'
      | .cut => Fault e d .cut d'
      | .dropped => Fault e d .dropped d') s d := by
  rw [wp_readBlock]
  have hr := readsOnly_advance d
  cases hf : d.fate with
  | ok => exact ⟨rfl, rfl, hr⟩
  | fail k => exact ⟨rfl, rfl, hr, k, Device.mem_fates_of_fate hf (by simp)⟩
  | cut k => exact ⟨rfl, hr, k, Device.mem_fates_of_fate hf (by simp)⟩
  | drop k => exact ⟨rfl, hr, k, Device.mem_fates_of_fate hf (by simp)⟩

theorem wp_writeBlock (e : ε) (id : Nat) (data : Bytes) (Q : Outcome ε Unit → σ → Device → Prop) (s : σ)
    (d : Device) :
    (writeBlock e id data).wp Q s d ↔ match d.fate with
      | .ok => Q (.ok ()) s (d.put id data data).advance
      | .fail k => Q (.err e) s (d.put id data (Bytes.tear k data (d.blocks id))).advance
      | .cut k => Q .cut s (d.put id data (Bytes.tear k data (d.blocks id))).advance
      | .drop k => Q .dropped s (d.put id data (Bytes.tear k data (d.blocks id))).advance := by
  unfold wp writeBlock
  cases d.fate <;> exact Iff.rfl

theorem wp_flush (e : ε) (Q : Outcome ε Unit → σ → Device → Prop) (s : σ) (d : Device) :
    (flush e).wp Q s d ↔ match d.fate with
      | .ok => Q (.ok ()) s d.advance
      | .fail _ => Q (.err e) s d.advance
      | .cut _ => Q .cut s d.advance
      | .drop _ => Q .dropped s d.advance := by
  unfold wp flush
  cases d.fate <;> exact Iff.rfl

/-! ### Answers -/

/-- The program uses up answers of the device from the front, and adds none. -/
def Consumes (p : Prog σ ε α) : Prop := ∀ s d, (p s d).2.2.fates <:+ d.fates

theorem consumes_pure (a : α) : Consumes (pure a : Prog σ ε α) := fun _ _ => List.suffix_refl _

theorem consumes_get : Consumes (get : Prog σ ε σ) := fun _ _ => List.suffix_refl _

theorem consumes_set (s : σ) : Consumes (set s : Prog σ ε Unit) := fun _ _ => List.suffix_refl _

theorem consumes_modify (f : σ → σ) : Consumes (modify f : Prog σ ε Unit) := fun _ _ => List.suffix_refl _

theorem consumes_throw (e : ε) : Consumes (throw e : Prog σ ε α) := fun _ _ => List.suffix_refl _

theorem consumes_ofExcept (x : Except ε α) : Consumes (ofExcept x : Prog σ ε α) := by
  intro s d
  cases x <;> exact List.suffix_refl _

theorem consumes_readBlock (e : ε) (id : Nat) : Consumes (readBlock e id : Prog σ ε Bytes) := by
  intro s d
  unfold readBlock
  split <;> exact List.tail_suffix _

theorem consumes_writeBlock (e : ε) (id : Nat) (data : Bytes) : Consumes (writeBlock e id data : Prog σ ε Unit) := by
  intro s d
  unfold writeBlock
  split <;> exact List.tail_suffix _

theorem consumes_flush (e : ε) : Consumes (flush e : Prog σ ε Unit) := by
  intro s d
  unfold flush
  split <;> exact List.tail_suffix _

theorem Consumes.bind {p : Prog σ ε α} {f : α → Prog σ ε β} (hp : Consumes p) (hf : ∀ a, Consumes (f a)) :
    Consumes (p >>= f) := by
  intro s d
  have h := hp s d
  show (Prog.bind p f s d).2.2.fates <:+ d.fates
  unfold Prog.bind
  split <;> rename_i heq <;> rw [heq] at h
  · exact (hf _ _ _).trans h
  all_goals exact h

theorem Consumes.attempt {p : Prog σ ε α} (hp : Consumes p) : Consumes (attempt p) := by
  intro s d
  have h := hp s d
  unfold Prog.attempt
  split <;> rename_i heq <;> rw [heq] at h <;> exact h

theorem Consumes.runLocal {p : Prog τ ε α} (hp : Consumes p) (t : τ) : Consumes (runLocal t p : Prog σ ε (α × τ)) := by
  intro s d
  have h := hp t d
  unfold Prog.runLocal
  split <;> rename_i heq <;> rw [heq] at h <;> exact h

theorem Consumes.zoom {p : Prog τ ε α} (hp : Consumes p) (get : σ → τ) (set : τ → σ → σ) : Consumes (zoom get set p) :=
  fun s d => hp (get s) d

theorem Consumes.wp {p : Prog σ ε α} (hp : Consumes p) (s : σ) (d : Device) :
    p.wp (fun _ _ d' => d'.fates <:+ d.fates) s d := hp s d

/-- Two facts about one run. -/
theorem wp_and {p : Prog σ ε α} {Q R : Outcome ε α → σ → Device → Prop} {s : σ} {d : Device} (hQ : p.wp Q s d)
    (hR : p.wp R s d) : p.wp (fun o s' d' => Q o s' d' ∧ R o s' d') s d := ⟨hQ, hR⟩

/-! ### Runs that only the device can stop -/

/-- On a device that answers every call the program returns where `C` holds, and only an outcome that `P` describes; it
fails of its own accord only where `C` does not hold. -/
def Delivers (d : Device) (C : Prop) (P : α → σ → Device → Prop) : Outcome ε α → σ → Device → Prop
  | .ok a, s', d' => P a s' d' ∧ (d.fates = [] → d'.fates = [])
  | .err _, _, _ => d.fates = [] → ¬ C
  | .cut, _, _ => d.fates ≠ []
  | .dropped, _, _ => d.fates ≠ []

section Delivers

variable {d : Device} {s : σ} {C D : Prop} {P : α → σ → Device → Prop} {Q : β → σ → Device → Prop}

theorem delivers_pure {a : α} (h : P a s d) : (pure a : Prog σ ε α).wp (Delivers d C P) s d := ⟨h, fun hf => hf⟩

theorem delivers_modify {f : σ → σ} {P : Unit → σ → Device → Prop} (h : P () (f s) d) :
    (modify f : Prog σ ε Unit).wp (Delivers d C P) s d := ⟨h, fun hf => hf⟩

theorem delivers_throw {e : ε} (h : ¬ C) : (throw e : Prog σ ε α).wp (Delivers d C P) s d := fun _ => h

theorem delivers_writeBlock (e : ε) (id : Nat) (data : Bytes) : (writeBlock e id data).wp
    (Delivers d C fun _ s' d' => s' = s ∧ d' = (d.put id data data).advance) s d := by
  rw [wp_writeBlock]
  cases hf : d.fate with
  | ok => exact ⟨⟨rfl, rfl⟩, fun hnil => by simp [Device.advance, Device.put, hnil]⟩
  | fail k => exact fun hnil => absurd hf (by simp [Device.fate, hnil])
  | cut k => exact fun hnil => absurd hf (by simp [Device.fate, hnil])
  | drop k => exact fun hnil => absurd hf (by simp [Device.fate, hnil])

theorem delivers_flush (e : ε) : (flush e).wp (Delivers d C fun _ s' d' => s' = s ∧ d' = d.advance) s d := by
  rw [wp_flush]
  cases hf : d.fate with
  | ok => exact ⟨⟨rfl, rfl⟩, fun hnil => by simp [Device.advance, hnil]⟩
  | fail k => exact fun hnil => absurd hf (by simp [Device.fate, hnil])
  | cut k => exact fun hnil => absurd hf (by simp [Device.fate, hnil])
  | drop k => exact fun hnil => absurd hf (by simp [Device.fate, hnil])

theorem delivers_mono {p : Prog σ ε α} {P' : α → σ → Device → Prop} (h : p.wp (Delivers d C P) s d) (hC : D → C)
    (hP : ∀ a s' d', P a s' d' → P' a s' d') : p.wp (Delivers d D P') s d := by
  refine wp_mono h ?_
  intro o s' d' ho
  cases o with
  | ok a => exact ⟨hP a s' d' ho.1, ho.2⟩
  | err e => exact fun hf hd => ho hf (hC hd)
  | cut => exact ho
  | dropped => exact ho

/-- In sequence both conditions have to hold. -/
theorem delivers_bind {p : Prog σ ε α} {f : α → Prog σ ε β} (hp : p.wp (Delivers d C P) s d) (hC : D → C)
    (hf : ∀ a s' d', P a s' d' → (f a).wp (Delivers d' D Q) s' d') : (p >>= f).wp (Delivers d D Q) s d := by
  rw [wp_bind]
  refine wp_mono hp ?_
  intro o s' d' ho
  cases o with
  | ok a =>
    rw [andThen_ok]
    refine wp_mono (hf a s' d' ho.1) ?_
    intro o s'' d'' ho'
    cases o with
    | ok b => exact ⟨ho'.1, fun hnil => ho'.2 (ho.2 hnil)⟩
    | err e => exact fun hnil => ho' (ho.2 hnil)
    | cut => exact fun hnil => ho' (ho.2 hnil)
    | dropped => exact fun hnil => ho' (ho.2 hnil)
  | err e => exact fun hnil hd => ho hnil (hC hd)
  | cut => exact ho
  | dropped => exact ho

theorem delivers_runLocal {p : Prog τ ε α} {t : τ} {P : α → τ → Device → Prop} (h : p.wp (Delivers d C P) t d) :
    (runLocal t p : Prog σ ε (α × τ)).wp (Delivers d C fun x s' d' => s' = s ∧ P x.1 x.2 d') s d := by
  rw [wp_runLocal]
  refine wp_mono h ?_
  intro o t' d' ho
  cases o with
  | ok a => exact ⟨⟨rfl, ho.1⟩, ho.2⟩
  | err e => exact ho
  | cut => exact ho
  | dropped => exact ho

/-- What a returned value says, whatever the device did. -/
theorem Delivers.of_ok {o : Outcome ε α} {s' : σ} {d' : Device} (h : Delivers d C P o s' d') : ∀ a, o = .ok a → P a s' d' := by
  rintro a rfl
  exact h.1

/-- On a device that answers every call. -/
theorem Delivers.of_healthy {o : Outcome ε α} {s' : σ} {d' : Device} (h : Delivers d C P o s' d') (hf : d.fates = [])
    (hC : C) : ∃ a, o = .ok a ∧ P a s' d' ∧ d'.fates = [] := by
  cases o with
  | ok a => exact ⟨a, rfl, h.1, h.2 hf⟩
  | err e => exact absurd hC (h hf)
  | cut => exact absurd hf h
  | dropped => exact absurd hf h

end Delivers

/-! ### Errors on a healthy device -/

/-- On a device that answers every call, the program ends with a value or with an error of `P`. -/
def Throws (P : ε → Prop) (p : Prog σ ε α) : Prop :=
  ∀ s d, d.fates = [] → (p s d).2.2.fates = [] ∧ ∀ e, (p s d).1 = .err e → P e

section Throws

variable {P : ε → Prop}

theorem throws_pure (a : α) : Throws P (pure a : Prog σ ε α) := fun _ _ hf => ⟨hf, fun _ he => by cases he⟩

theorem throws_get : Throws P (get : Prog σ ε σ) := fun _ _ hf => ⟨hf, fun _ he => by cases he⟩

theorem throws_set (s : σ) : Throws P (set s : Prog σ ε Unit) := fun _ _ hf => ⟨hf, fun _ he => by cases he⟩

theorem throws_modify (f : σ → σ) : Throws P (modify f : Prog σ ε Unit) := fun _ _ hf => ⟨hf, fun _ he => by cases he⟩

theorem throws_throw {e : ε} (h : P e) : Throws P (throw e : Prog σ ε α) := by
  intro s d hf
  refine ⟨hf, fun e' he => ?_⟩
  obtain rfl := Outcome.err.inj he
  exact h

theorem throws_ofExcept {x : Except ε α} (h : ∀ e, x = .error e → P e) : Throws P (ofExcept x : Prog σ ε α) := by
  cases x with
  | ok a => exact throws_pure a
  | error e => exact throws_throw (h e rfl)

theorem throws_writeBlock (e : ε) (id : Nat) (data : Bytes) : Throws P (writeBlock e id data : Prog σ ε Unit) := by
  intro s d hf
  have hfate : d.fate = .ok := by simp [Device.fate, hf]
  unfold writeBlock
  rw [hfate]
  exact ⟨by simp [Device.advance, Device.put, hf], fun _ he => by cases he⟩

theorem throws_flush (e : ε) : Throws P (flush e : Prog σ ε Unit) := by
  intro s d hf
  have hfate : d.fate = .ok := by simp [Device.fate, hf]
  unfold flush
  rw [hfate]
  exact ⟨by simp [Device.advance, hf], fun _ he => by cases he⟩

theorem Throws.bind {p : Prog σ ε α} {f : α → Prog σ ε β} (hp : Throws P p) (hf : ∀ a, Throws P (f a)) :
    Throws P (p >>= f) := by
  intro s d hnil
  obtain ⟨hnil', herr⟩ := hp s d hnil
  show (Prog.bind p f s d).2.2.fates = [] ∧ ∀ e, (Prog.bind p f s d).1 = .err e → P e
  unfold Prog.bind
  split <;> rename_i heq <;> rw [heq] at hnil' herr
  · exact hf _ _ _ hnil'
  · refine ⟨hnil', fun e he => ?_⟩
    obtain rfl := Outcome.err.inj he
    exact herr _ rfl
  · exact ⟨hnil', fun _ he => by cases he⟩
  · exact ⟨hnil', fun _ he => by cases he⟩

theorem Throws.runLocal {p : Prog τ ε α} (hp : Throws P p) (t : τ) : Throws P (runLocal t p : Prog σ ε (α × τ)) := by
  intro s d hnil
  obtain ⟨hnil', herr⟩ := hp t d hnil
  unfold Prog.runLocal
  split <;> rename_i heq <;> rw [heq] at hnil' herr
  · exact ⟨hnil', fun _ he => by cases he⟩
  · refine ⟨hnil', fun e he => ?_⟩
    obtain rfl := Outcome.err.inj he
    exact herr _ rfl
  · exact ⟨hnil', fun _ he => by cases he⟩
  · exact ⟨hnil', fun _ he => by cases he⟩

end Throws

end Prog

end BlockDev
