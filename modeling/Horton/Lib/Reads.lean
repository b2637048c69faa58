import Horton.Lib.Device

/-!
# Programs that only read

`Reads ε α` is a program that asks for blocks and returns a value or an error of its own.  `Reads.eval` answers from a
fixed content of the blocks; `Reads.run` asks a device, which may refuse.  `Reads.run_spec` connects the two: a run
returns what `eval` returns, unless the device stops it.
-/

namespace BlockDev

inductive Reads (ε α : Type)
  | done (a : α)
  | fail (e : ε)
  | read (id : Nat) (k : Bytes → Reads ε α)

namespace Reads

variable {σ ε α β : Type}

def bind : Reads ε α → (α → Reads ε β) → Reads ε β
  | done a, f => f a
  | fail e, _ => fail e
  | read id k, f => read id fun b => bind (k b) f

instance : Monad (Reads ε) where
  pure := done
  bind := Reads.bind

def block (id : Nat) : Reads ε Bytes := read id done

def ofExcept : Except ε α → Reads ε α
  | .ok a => done a
  | .error e => fail e

def eval (blocks : Nat → Bytes) : Reads ε α → Except ε α
  | done a => .ok a
  | fail e => .error e
  | read id k => eval blocks (k (blocks id))

@[simp] theorem eval_pure (blocks : Nat → Bytes) (a : α) : (pure a : Reads ε α).eval blocks = .ok a := rfl

@[simp] theorem eval_fail (blocks : Nat → Bytes) (e : ε) : (fail e : Reads ε α).eval blocks = .error e := rfl

@[simp] theorem eval_block (blocks : Nat → Bytes) (id : Nat) : (block id : Reads ε Bytes).eval blocks = .ok (blocks id) := rfl

@[simp] theorem eval_bind (blocks : Nat → Bytes) (r : Reads ε α) (f : α → Reads ε β) :
    (r >>= f).eval blocks = (r.eval blocks).bind fun a => (f a).eval blocks := by
  show (r.bind f).eval blocks = _
  induction r with
  | done a => rfl
  | fail e => rfl
  | read id k ih => exact ih (blocks id)

@[simp] theorem eval_ofExcept (blocks : Nat → Bytes) (x : Except ε α) : (ofExcept x).eval blocks = x := by
  cases x <;> rfl

/-- A loop whose steps all succeed. -/
theorem eval_foldlM {blocks : Nat → Bytes} {f : β → α → Reads ε β} {g : β → α → β} {l : List α}
    (h : ∀ b, ∀ a ∈ l, (f b a).eval blocks = .ok (g b a)) (b : β) : (l.foldlM f b).eval blocks = .ok (l.foldl g b) := by
  induction l generalizing b with
  | nil => rfl
  | cons a l ih =>
    rw [List.foldlM_cons, eval_bind, h b a (by simp)]
    exact ih (fun b' a' ha => h b' a' (by simp [ha])) (g b a)

/-- Asks a device; `dev` is its error. -/
def run (dev : ε) : Reads ε α → Prog σ ε α
  | done a => pure a
  | fail e => Prog.throw e
  | read id k => do
    let b ← Prog.readBlock dev id
    run dev (k b)

/-- How a run ends: as on the blocks of the device, or stopped by it. -/
def RunPost (dev : ε) (r : Reads ε α) (s : σ) (d : Device) : Outcome ε α → σ → Device → Prop
  | .ok a, s', d' => s' = s ∧ r.eval d.blocks = .ok a ∧ ReadsOnly d d'
  | .err e, s', d' => s' = s ∧ ((r.eval d.blocks = .error e ∧ ReadsOnly d d') ∨ Prog.Fault dev d (.err e) d')
  | .cut, s', d' => s' = s ∧ Prog.Fault dev d .cut d'
  | .dropped, s', d' => s' = s ∧ Prog.Fault dev d .dropped d'

theorem run_spec (dev : ε) (r : Reads ε α) (s : σ) (d : Device) : (r.run dev).wp (RunPost dev r s d) s d := by
  induction r generalizing d with
  | done a => exact ⟨rfl, rfl, .refl d⟩
  | fail e => exact ⟨rfl, Or.inl ⟨rfl, .refl d⟩⟩
  | read id k ih =>
    rw [run, Prog.wp_bind]
    refine Prog.wp_mono (Prog.readBlock_spec dev id s d) ?_
    intro o s' d' hp
    obtain ⟨rfl, hp⟩ := hp
    cases o with
    | err e => exact ⟨rfl, Or.inr hp⟩
    | cut => exact ⟨rfl, hp⟩
    | dropped => exact ⟨rfl, hp⟩
    | ok b =>
      obtain ⟨rfl, hd⟩ := hp
      rw [Prog.andThen_ok]
      refine Prog.wp_mono (ih (d.blocks id) d') ?_
      intro o s'' d'' hp
      cases o with
      | ok a =>
        obtain ⟨rfl, he, hr⟩ := hp
        exact ⟨rfl, by rw [hd.1] at he; exact he, hd.trans hr⟩
      | err e =>
        obtain ⟨rfl, ⟨he, hr⟩ | hf⟩ := hp
        · exact ⟨rfl, Or.inl ⟨by rw [hd.1] at he; exact he, hd.trans hr⟩⟩
        · exact ⟨rfl, Or.inr (hf.mono hd)⟩
      | cut => exact ⟨hp.1, hp.2.mono hd⟩
      | dropped => exact ⟨hp.1, hp.2.mono hd⟩

end Reads

end BlockDev
