import Horton.Lib.Reads

/-!
# Programs that read with a state

A program that only reads ends as it should, or the device stops it.  `Reading` says both at once; its rules follow the
program, and what the device answered before a step is of no concern behind it.
-/

namespace BlockDev

variable {σ τ ε α β : Type} {dev : ε}

/-- The device stopped a program: its error, a cut or a drop was among the answers to come. -/
def Halted (dev : ε) (d : Device) : Outcome ε α → Prop
  | .ok _ => False
  | .err e => e = dev ∧ ∃ k, Fate.fail k ∈ d.fates
  | .cut => ∃ k, Fate.cut k ∈ d.fates
  | .dropped => ∃ k, Fate.drop k ∈ d.fates

theorem Halted.mono {d d' : Device} {o : Outcome ε α} (h : Halted dev d' o) (hd : ReadsOnly d d') : Halted dev d o := by
  cases o with
  | ok a => exact h
  | err e => exact ⟨h.1, h.2.imp fun k hk => hd.2.2.subset hk⟩
  | cut => exact h.imp fun k hk => hd.2.2.subset hk
  | dropped => exact h.imp fun k hk => hd.2.2.subset hk

/-- `p` changes no block; it ends with `Q`, or the device stops it. -/
def Reading (dev : ε) (p : Prog σ ε α) (Q : Outcome ε α → σ → Prop) (s : σ) (d : Device) : Prop :=
  p.wp (fun o s' d' => ReadsOnly d d' ∧ (Q o s' ∨ Halted dev d o)) s d

namespace Reading

variable {p : Prog σ ε α} {Q R : Outcome ε α → σ → Prop} {s : σ} {d : Device}

theorem mono (h : Reading dev p Q s d) (hQR : ∀ o s', Q o s' → R o s') : Reading dev p R s d :=
  Prog.wp_mono h fun o s' _ hp => ⟨hp.1, hp.2.imp_left (hQR o s')⟩

theorem pure_ok (a : α) (h : Q (.ok a) s) : Reading dev (pure a) Q s d := ⟨.refl d, Or.inl h⟩

theorem set_ok {Q : Outcome ε Unit → σ → Prop} (t : σ) (h : Q (.ok ()) t) : Reading dev (Prog.set t) Q s d :=
  ⟨.refl d, Or.inl h⟩

theorem modify_ok {Q : Outcome ε Unit → σ → Prop} (f : σ → σ) (h : Q (.ok ()) (f s)) : Reading dev (Prog.modify f) Q s d :=
  ⟨.refl d, Or.inl h⟩

/-- The rule of sequence. -/
theorem bind {f : α → Prog σ ε β} {Q : Outcome ε β → σ → Prop} {a : α} {K : σ → Prop}
    (hp : Reading dev p (fun o s' => o = .ok a ∧ K s') s d)
    (hf : ∀ s' d', ReadsOnly d d' → K s' → Reading dev (f a) Q s' d') : Reading dev (p >>= f) Q s d := by
  unfold Reading
  rw [Prog.wp_bind]
  refine Prog.wp_mono hp ?_
  intro o s' d' h
  obtain ⟨hd, ⟨rfl, hK⟩ | hhalt⟩ := h
  · rw [Prog.andThen_ok]
    refine Prog.wp_mono (hf s' d' hd hK) ?_
    intro o s'' d'' h
    exact ⟨hd.trans h.1, h.2.imp_right fun hh => hh.mono hd⟩
  · cases o with
    | ok a => exact hhalt.elim
    | err e => exact ⟨hd, Or.inr hhalt⟩
    | cut => exact ⟨hd, Or.inr hhalt⟩
    | dropped => exact ⟨hd, Or.inr hhalt⟩

/-- The rule of sequence where only success is of concern. -/
theorem bind_of_ok {f : α → Prog σ ε β} {K : α → σ → Prop} {L : β → σ → Prop}
    (hp : Reading dev p (fun o s' => ∀ a, o = .ok a → K a s') s d)
    (hf : ∀ a s' d', ReadsOnly d d' → K a s' → Reading dev (f a) (fun o s'' => ∀ b, o = .ok b → L b s'') s' d') :
    Reading dev (p >>= f) (fun o s' => ∀ b, o = .ok b → L b s') s d := by
  unfold Reading
  rw [Prog.wp_bind]
  refine Prog.wp_mono hp ?_
  intro o s' d' h
  obtain ⟨hd, hQ⟩ := h
  cases o with
  | ok a =>
    rcases hQ with hK | hhalt
    · rw [Prog.andThen_ok]
      refine Prog.wp_mono (hf a s' d' hd (hK a rfl)) ?_
      intro o s'' d'' h
      exact ⟨hd.trans h.1, h.2.imp_right fun hh => hh.mono hd⟩
    · exact hhalt.elim
  | err e => exact ⟨hd, Or.inl fun b hb => by cases hb⟩
  | cut => exact ⟨hd, Or.inl fun b hb => by cases hb⟩
  | dropped => exact ⟨hd, Or.inl fun b hb => by cases hb⟩

theorem get_bind {f : σ → Prog σ ε β} {Q : Outcome ε β → σ → Prop} (h : Reading dev (f s) Q s d) :
    Reading dev (Prog.get >>= f) Q s d := h

/-- Reads that succeed on the blocks of the device. -/
theorem run_ok {r : Reads ε α} {a : α} (h : r.eval d.blocks = .ok a) :
    Reading dev (r.run dev) (fun o s' => o = .ok a ∧ s' = s) s d := by
  refine Prog.wp_mono (Reads.run_spec dev r s d) ?_
  intro o s' d' hp
  cases o with
  | ok a' =>
    obtain ⟨rfl, ha, hd⟩ := hp
    rw [h] at ha
    exact ⟨hd, Or.inl ⟨by rw [Except.ok.inj ha], rfl⟩⟩
  | err e =>
    obtain ⟨rfl, ⟨he, -⟩ | hf⟩ := hp
    · rw [h] at he
      cases he
    · exact ⟨hf.2.1, Or.inr ⟨hf.1, hf.2.2⟩⟩
  | cut => exact ⟨hp.2.1, Or.inr hp.2.2⟩
  | dropped => exact ⟨hp.2.1, Or.inr hp.2.2⟩

theorem run_bind {r : Reads ε α} {a : α} {f : α → Prog σ ε β} {Q : Outcome ε β → σ → Prop} (h : r.eval d.blocks = .ok a)
    (hf : ∀ d', ReadsOnly d d' → Reading dev (f a) Q s d') : Reading dev (r.run dev >>= f) Q s d := by
  refine bind (run_ok h) fun s' d' hd hs => ?_
  rw [hs]
  exact hf d' hd

theorem zoom {get : σ → τ} {set : τ → σ → σ} {p : Prog τ ε α} (h : Reading dev p (fun o t => Q o (set t s)) (get s) d) :
    Reading dev (Prog.zoom get set p) Q s d := h

end Reading

namespace Prog

/-- Runs a program on the elements of a list, one after the other. -/
def each (p : Prog τ ε Unit) : Prog (List τ) ε Unit
  | [], d => (.ok (), [], d)
  | a :: l, d =>
    match p a d with
    | (.ok _, a', d') =>
      let r := each p l d'
      (r.1, a' :: r.2.1, r.2.2)
    | (o, a', d') => (o, a' :: l, d')

end Prog

namespace Reading

/-- A program that keeps every element in its relation, from one to the next. -/
theorem each {γ : Type} {p : Prog τ ε Unit} {S S' : γ → τ → Prop} {ts : List γ} {l : List τ} {d : Device}
    (hl : List.Forall₂ S ts l)
    (h : ∀ t a, S t a → ∀ d', ReadsOnly d d' → Reading dev p (fun o a' => o = .ok () ∧ S' t a') a d') :
    Reading dev (Prog.each p) (fun o l' => o = .ok () ∧ List.Forall₂ S' ts l') l d := by
  induction hl generalizing d with
  | nil => exact ⟨.refl d, Or.inl ⟨rfl, .nil⟩⟩
  | @cons t a ts l hta _ ih =>
    have hfirst := h t a hta d (.refl d)
    unfold Reading Prog.wp Prog.each
    unfold Reading Prog.wp at hfirst
    rcases hrun : p a d with ⟨o, a', d'⟩
    rw [hrun] at hfirst
    obtain ⟨hd, hQ⟩ := hfirst
    cases o with
    | ok u =>
      rcases hQ with ⟨-, hS⟩ | hhalt
      · obtain ⟨hd', hQ'⟩ := @ih d' fun t x hx d'' hd'' => h t x hx d'' (hd.trans hd'')
        refine ⟨hd.trans hd', ?_⟩
        rcases hQ' with ⟨ho, hl⟩ | hhalt
        · exact Or.inl ⟨ho, .cons hS hl⟩
        · exact Or.inr (hhalt.mono hd)
      · exact hhalt.elim
    | err e =>
      rcases hQ with ⟨ho, -⟩ | hhalt
      · cases ho
      · exact ⟨hd, Or.inr hhalt⟩
    | cut =>
      rcases hQ with ⟨ho, -⟩ | hhalt
      · cases ho
      · exact ⟨hd, Or.inr hhalt⟩
    | dropped =>
      rcases hQ with ⟨ho, -⟩ | hhalt
      · cases ho
      · exact ⟨hd, Or.inr hhalt⟩

end Reading

end BlockDev
