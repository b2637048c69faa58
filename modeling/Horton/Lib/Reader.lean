import Horton.Lib.Reads

/-!
# Readers

A `Reader α` is a parser that asks for one byte string after the other and either returns a value or finds the input
corrupt.  It does not say where the bytes come from: `Reader.onSlice` feeds it from a byte string, `Reader.stream` with a
program that fetches them from blocks, and `Reader.eval_stream` says that the two agree when every fetch does.

`Inverts r enc ok` says that `r` is the exact inverse of the encoder `enc`: it reads back every valid value, and
everything it accepts is the encoding of a valid value.
-/

open BlockDev

inductive Reader (α : Type)
  | done (a : α)
  | corrupt
  | take (n : Nat) (k : Bytes → Reader α)

namespace Reader

variable {α β σ ε : Type}

def bind : Reader α → (α → Reader β) → Reader β
  | done a, f => f a
  | corrupt, _ => corrupt
  | take n k, f => take n fun b => bind (k b) f

instance : Monad Reader where
  pure := done
  bind := Reader.bind

/-- The next `n` bytes. -/
def bytes (n : Nat) : Reader Bytes := take n done

/-- An `n`-byte little-endian integer. -/
def uint (n : Nat) : Reader Nat := take n fun b => done (Bytes.leNat b)

/-- Goes on only under a condition. -/
def check (c : Bool) : Reader Unit := if c then done () else corrupt

/-- The same reader `n` times. -/
def times (r : Reader α) : Nat → Reader (List α)
  | 0 => pure []
  | n + 1 => do
    let a ← r
    let as ← times r n
    return a :: as

/-- Reads from a byte string; returns the value and the bytes left over. -/
def onSlice : Reader α → Bytes → Option (α × Bytes)
  | done a, b => some (a, b)
  | corrupt, _ => none
  | take n k, b => if n ≤ b.length then onSlice (k (b.take n)) (b.drop n) else none

theorem onSlice_pure (a : α) (b : Bytes) : (pure a : Reader α).onSlice b = some (a, b) := rfl

theorem onSlice_bind (r : Reader α) (f : α → Reader β) (b : Bytes) :
    (r >>= f).onSlice b = (r.onSlice b).bind fun x => (f x.1).onSlice x.2 := by
  show (r.bind f).onSlice b = _
  induction r generalizing b with
  | done a => rfl
  | corrupt => rfl
  | take n k ih =>
    simp only [bind, onSlice]
    split
    · exact ih _ _
    · rfl

/-! ### Exact inverses -/

structure Inverts (r : Reader α) (enc : α → Bytes) (ok : α → Prop) : Prop where
  read : ∀ a, ok a → ∀ t, r.onSlice (enc a ++ t) = some (a, t)
  exact : ∀ b a t, r.onSlice b = some (a, t) → b = enc a ++ t ∧ ok a

theorem inverts_uint (n : Nat) : Inverts (uint n) (Bytes.leBytes n) (· < 256 ^ n) where
  read v hv t := by
    simp [uint, onSlice, Bytes.leNat_leBytes_of_lt hv]
  exact b v t h := by
    simp only [uint, onSlice] at h
    split at h
    · rename_i hn
      obtain ⟨rfl, rfl⟩ := Prod.mk.inj (Option.some.inj h)
      have hlen : (b.take n).length = n := by simp; omega
      have henc := Bytes.leBytes_leNat (b.take n)
      have hlt := Bytes.leNat_lt (b.take n)
      rw [hlen] at henc hlt
      exact ⟨by rw [henc, List.take_append_drop], hlt⟩
    · simp at h

theorem inverts_bytes (n : Nat) : Inverts (bytes n) id (·.length = n) where
  read v hv t := by
    subst hv
    simp [bytes, onSlice]
  exact b v t h := by
    simp only [bytes, onSlice] at h
    split at h
    · obtain ⟨rfl, rfl⟩ := Prod.mk.inj (Option.some.inj h)
      exact ⟨by simp, by simp; omega⟩
    · simp at h

theorem inverts_times {r : Reader α} {enc : α → Bytes} {ok : α → Prop} (h : Inverts r enc ok) (n : Nat) :
    Inverts (times r n) (List.flatMap enc) fun as => as.length = n ∧ ∀ a ∈ as, ok a where
  read as has t := by
    obtain ⟨rfl, has⟩ := has
    induction as with
    | nil => rfl
    | cons a as ih =>
      have ha : r.onSlice (enc a ++ (as.flatMap enc ++ t)) = some (a, as.flatMap enc ++ t) := h.read a (has a (by simp)) _
      have htail := ih fun b hb => has b (by simp [hb])
      rw [List.length_cons, times, onSlice_bind, List.flatMap_cons, List.append_assoc, ha, Option.bind_some, onSlice_bind,
        htail]
      rfl
  exact b as t hb := by
    induction n generalizing b as with
    | zero =>
      obtain ⟨rfl, rfl⟩ := Prod.mk.inj (Option.some.inj hb)
      simp
    | succ n ih =>
      rw [times, onSlice_bind] at hb
      obtain ⟨⟨a, b₁⟩, ha, hb⟩ := Option.bind_eq_some_iff.mp hb
      rw [onSlice_bind] at hb
      obtain ⟨⟨as', b₂⟩, has, hb⟩ := Option.bind_eq_some_iff.mp hb
      obtain ⟨rfl, rfl⟩ := Prod.mk.inj (Option.some.inj hb)
      obtain ⟨rfl, hok⟩ := h.exact _ _ _ ha
      obtain ⟨rfl, rfl, hoks⟩ := ih _ _ has
      refine ⟨by simp, by simp, ?_⟩
      intro c hc
      rcases List.mem_cons.mp hc with rfl | hc
      · exact hok
      · exact hoks c hc

theorem Inverts.injective {r : Reader α} {enc : α → Bytes} {ok : α → Prop} (h : Inverts r enc ok) {a b : α} (ha : ok a)
    (hb : ok b) (he : enc a = enc b) : a = b := by
  have h1 := h.read a ha []
  have h2 := h.read b hb []
  rw [he, h2] at h1
  exact (Prod.mk.inj (Option.some.inj h1)).1.symm

/-! ### Reading from blocks -/

/-- Reads with `fetch`, which has a state of its own; `bad` reports corrupt input. -/
def stream (fetch : Nat → σ → Reads ε (Bytes × σ)) (bad : ε) : Reader α → σ → Reads ε (α × σ)
  | done a, s => pure (a, s)
  | corrupt, _ => .fail bad
  | take n k, s => do
    let (b, s') ← fetch n s
    stream fetch bad (k b) s'

/-- The program returns what `r` reads from `rest`, in a state that `R` relates to the bytes left. -/
def Streams (bad : ε) (R : Bytes → σ → Prop) (r : Reader α) (rest : Bytes) : Except ε (α × σ) → Prop
  | .ok (a, s) => ∃ rest', r.onSlice rest = some (a, rest') ∧ R rest' s
  | .error e => e = bad ∧ r.onSlice rest = none

/-- When every fetch gives the next bytes of a byte string, the whole program reads that byte string. -/
theorem eval_stream {fetch : Nat → σ → Reads ε (Bytes × σ)} {bad : ε} {blocks : Nat → Bytes} {R : Bytes → σ → Prop}
    (hfetch : ∀ n rest s, R rest s → Streams bad R (bytes n) rest ((fetch n s).eval blocks)) (r : Reader α) {rest : Bytes}
    {s : σ} (h : R rest s) : Streams bad R r rest ((r.stream fetch bad s).eval blocks) := by
  induction r generalizing rest s with
  | done a => exact ⟨rest, rfl, h⟩
  | corrupt => exact ⟨rfl, rfl⟩
  | take n k ih =>
    have hf := hfetch n rest s h
    rw [stream, Reads.eval_bind]
    by_cases hn : n ≤ rest.length
    · have htake : (take n k).onSlice rest = (k (rest.take n)).onSlice (rest.drop n) := by rw [onSlice, if_pos hn]
      have hbytes : (bytes n).onSlice rest = some (rest.take n, rest.drop n) := by rw [bytes, onSlice, if_pos hn]; rfl
      rcases he : (fetch n s).eval blocks with e | ⟨b, s'⟩
      · rw [he] at hf
        exact absurd (hf.2.symm.trans hbytes) (by simp)
      · rw [he] at hf
        obtain ⟨rest', hb, hR⟩ := hf
        obtain ⟨rfl, rfl⟩ := Prod.mk.inj (Option.some.inj (hbytes.symm.trans hb))
        have hrest := ih (rest.take n) hR
        show Streams bad R _ _ ((stream fetch bad (k (rest.take n)) s').eval blocks)
        cases hx : (stream fetch bad (k (rest.take n)) s').eval blocks with
        | error e => rw [hx] at hrest; exact ⟨hrest.1, htake.trans hrest.2⟩
        | ok x => rw [hx] at hrest; exact hrest.imp fun _ hr => ⟨htake.trans hr.1, hr.2⟩
    · have htake : (take n k).onSlice rest = none := by rw [onSlice, if_neg hn]
      have hbytes : (bytes n).onSlice rest = none := by rw [bytes, onSlice, if_neg hn]
      rcases he : (fetch n s).eval blocks with e | ⟨b, s'⟩
      · rw [he] at hf
        exact ⟨hf.1, htake⟩
      · rw [he] at hf
        obtain ⟨rest', hb, -⟩ := hf
        exact absurd (hbytes.symm.trans hb) (by simp)

/-- What every fetch keeps of its state, a whole program keeps. -/
theorem stream_keeps {fetch : Nat → σ → Reads ε (Bytes × σ)} {bad : ε} {blocks : Nat → Bytes} {P : σ → Prop}
    (hfetch : ∀ n s b s', P s → (fetch n s).eval blocks = .ok (b, s') → P s') (r : Reader α) {s s' : σ} {a : α} (h : P s)
    (hr : (r.stream fetch bad s).eval blocks = .ok (a, s')) : P s' := by
  induction r generalizing s with
  | done x =>
    obtain ⟨-, rfl⟩ := Prod.mk.inj (Except.ok.inj hr)
    exact h
  | corrupt => cases hr
  | take n k ih =>
    rw [stream, Reads.eval_bind] at hr
    rcases he : (fetch n s).eval blocks with e | ⟨b, s₁⟩
    · rw [he] at hr
      cases hr
    · rw [he] at hr
      exact ih b (hfetch n s b s₁ h he) hr

end Reader
