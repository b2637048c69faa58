import Mathlib.Data.List.Basic
import Mathlib.Data.List.Infix
import Mathlib.Order.Lattice

/-!
# Logs of record groups

A log is a row of blocks; each block holds records that carry increasing sequence numbers.  A record either closes its
group or says that more records of the group follow, and a group counts only once its closing record is there.
`closed` is the part of a block that complete groups make up.

A reader walks the blocks from some position: it replays what is complete and newer than a floor, and stops at the
first block that cannot belong to the log (`passes`).  A torn block ends the log unless the next block starts with a
newer record, which the reader's `Cursor` remembers.  `Window` is a run of blocks that the walk passes, with what it
replays there; every invariant of a log on a reused region is stated about a window and the blocks outside it.
-/

namespace GroupLog

class LogRecord (ρ : Type) where
  seq : ρ → Nat
  more : ρ → Bool

open LogRecord

variable {ρ : Type} [LogRecord ρ]

/-- The records of a block in order, and whether something other than clean padding follows them. -/
structure Summary (ρ : Type) where
  recs : List ρ
  torn : Bool

/-- The longest prefix that ends with a closing record. -/
def closed : List ρ → List ρ
  | [] => []
  | r :: rs => match closed rs with
    | [] => if more r then [] else [r]
    | c :: cs => r :: c :: cs

def Increasing (rs : List ρ) : Prop := rs.Pairwise (fun a b => seq a < seq b)

namespace Summary

def groups (b : Summary ρ) : List ρ := closed b.recs

/-- A group without its closing record is torn too, even when what follows reads as clean padding. -/
def isTorn (b : Summary ρ) : Bool := b.torn || (closed b.recs).length < b.recs.length

def firstSeq (b : Summary ρ) : Option Nat := b.recs.head?.map seq

def live (floor : Nat) (b : Summary ρ) : List ρ := b.groups.filter (fun r => floor < seq r)

end Summary

/-- What the walk carries from block to block: the highest sequence number seen, and, after a torn block, the number
that the next block has to exceed. -/
structure Cursor where
  max : Nat
  newer : Option Nat

def maxSeq (m : Nat) (rs : List ρ) : Nat := rs.foldl (fun m r => max m (seq r)) m

def Cursor.next (c : Cursor) (b : Summary ρ) : Cursor :=
  let m := maxSeq c.max b.groups
  ⟨m, if b.isTorn then some m else none⟩

/-- The block follows the torn block before it, if there is one. -/
def follows (c : Cursor) (b : Summary ρ) : Bool :=
  match c.newer with
  | none => true
  | some f => match b.firstSeq with
    | none => false
    | some s => f < s

/-- The walk takes the block and goes on. -/
def passes (floor : Nat) (c : Cursor) (b : Summary ρ) : Bool :=
  follows c b && !b.groups.isEmpty && (!(b.live floor).isEmpty || b.isTorn)

/-- The walk over at most `n` blocks from block `id` on: what it replays, where it stops, and the cursor there. -/
def walk (S : Nat → Summary ρ) (floor : Nat) : Nat → Nat → Cursor → List ρ × Nat × Cursor
  | 0, id, c => ([], id, c)
  | n + 1, id, c =>
    if passes floor c (S id) then
      let r := walk S floor n (id + 1) (c.next (S id))
      ((S id).live floor ++ r.1, r.2)
    else ([], id, c)

/-- The walk started at block `id` with cursor `c` passes all blocks before block `j`, replays `rs` there and reaches
`j` with cursor `c'`. -/
inductive Window (S : Nat → Summary ρ) (floor : Nat) (id : Nat) (c : Cursor) : List ρ → Nat → Cursor → Prop
  | nil : Window S floor id c [] id c
  | snoc {rs : List ρ} {j : Nat} {c' : Cursor} (h : Window S floor id c rs j c') (hp : passes floor c' (S j) = true) :
      Window S floor id c (rs ++ (S j).live floor) (j + 1) (c'.next (S j))

/-! ### Closed prefixes -/

theorem closed_isPrefix (rs : List ρ) : closed rs <+: rs := by
  induction rs with
  | nil => exact List.prefix_rfl
  | cons r rs ih =>
    unfold closed
    split
    · split
      · exact List.nil_prefix
      · exact List.cons_prefix_cons.mpr ⟨rfl, List.nil_prefix⟩
    · rename_i c cs h
      rw [h] at ih
      exact List.cons_prefix_cons.mpr ⟨rfl, ih⟩

theorem closed_append_of_more {rs ss : List ρ} (h : ∀ r ∈ ss, more r = true) : closed (rs ++ ss) = closed rs := by
  have hss : closed ss = [] := by
    induction ss with
    | nil => rfl
    | cons r ss ih =>
      have := ih fun r' hr' => h r' (List.mem_cons_of_mem _ hr')
      simp [closed, this, h r List.mem_cons_self]
  induction rs with
  | nil => simpa [closed] using hss
  | cons r rs ih => simp only [List.cons_append, closed, ih]

theorem closed_append_closing (rs : List ρ) {r : ρ} (h : more r = false) : closed (rs ++ [r]) = rs ++ [r] := by
  induction rs with
  | nil => simp [closed, h]
  | cons a rs ih =>
    simp only [List.cons_append, closed, ih]
    cases rs <;> rfl

/-- A nonempty closed part ends with a closing record. -/
theorem closed_eq_snoc {rs : List ρ} (h : closed rs ≠ []) :
    ∃ ss r, closed rs = ss ++ [r] ∧ more r = false := by
  induction rs with
  | nil => exact absurd rfl h
  | cons a rs ih =>
    rcases hc : closed rs with _ | ⟨c, cs⟩
    · rw [closed, hc] at h ⊢
      by_cases ha : more a = true
      · simp [ha] at h
      · exact ⟨[], a, by simp [ha], by simpa using ha⟩
    · obtain ⟨ss, r, hr, hm⟩ := ih (by simp [hc])
      refine ⟨a :: ss, r, ?_, hm⟩
      rw [closed, hc]
      simpa [hc] using hr

theorem closed_closed (rs : List ρ) : closed (closed rs) = closed rs := by
  by_cases h : closed rs = []
  · rw [h]; rfl
  · obtain ⟨ss, r, hr, hm⟩ := closed_eq_snoc h
    rw [hr]
    exact closed_append_closing ss hm

theorem closed_append (rs ss : List ρ) (h : closed ss ≠ []) : closed (rs ++ ss) = rs ++ closed ss := by
  induction rs with
  | nil => rfl
  | cons r rs ih =>
    rw [List.cons_append, closed, ih]
    rcases hc : rs ++ closed ss with _ | ⟨c, cs⟩
    · exact absurd (List.append_eq_nil_iff.mp hc).2 h
    · simp [hc]

/-- Every closing record belongs to the closed part. -/
theorem mem_closed {rs : List ρ} {r : ρ} (h : r ∈ rs) (hm : more r = false) : r ∈ closed rs := by
  induction rs with
  | nil => simp at h
  | cons a rs ih =>
    unfold closed
    rcases List.mem_cons.mp h with rfl | h
    · split <;> simp [hm]
    · have := ih h
      split
      · rename_i hc; simp [hc] at this
      · rename_i hc; rw [← hc]; exact List.mem_cons_of_mem _ this

theorem closed_ne_nil {rs : List ρ} {r : ρ} (h : r ∈ rs) (hm : more r = false) : closed rs ≠ [] :=
  List.ne_nil_of_mem (mem_closed h hm)

theorem Increasing.sublist {rs ss : List ρ} (h : Increasing ss) (hs : rs.Sublist ss) : Increasing rs :=
  List.Pairwise.sublist hs h

/-- In increasing order the closing record that ends the closed part bounds all of it. -/
theorem closed_le {rs : List ρ} (hi : Increasing rs) {b : Nat} (h : ∀ r ∈ rs, more r = false → seq r ≤ b) :
    ∀ r ∈ closed rs, seq r ≤ b := by
  intro r hr
  obtain ⟨ss, l, hl, hm⟩ := closed_eq_snoc (List.ne_nil_of_mem hr)
  have hlb : seq l ≤ b := h l ((closed_isPrefix rs).subset (by simp [hl])) hm
  have hinc : Increasing (ss ++ [l]) := hl ▸ hi.sublist (closed_isPrefix rs).sublist
  rw [hl] at hr
  rcases List.mem_append.mp hr with hr | hr
  · exact le_of_lt (lt_of_lt_of_le ((List.pairwise_append.mp hinc).2.2 r hr l (by simp)) hlb)
  · rw [List.mem_singleton.mp hr]; exact hlb

/-! ### The highest sequence number -/

theorem le_maxSeq (m : Nat) (rs : List ρ) : m ≤ maxSeq m rs := by
  induction rs generalizing m with
  | nil => exact le_rfl
  | cons r rs ih => exact le_trans (le_max_left _ _) (ih _)

theorem seq_le_maxSeq {m : Nat} {rs : List ρ} {r : ρ} (h : r ∈ rs) : seq r ≤ maxSeq m rs := by
  induction rs generalizing m with
  | nil => simp at h
  | cons a rs ih =>
    rcases List.mem_cons.mp h with rfl | h
    · exact le_trans (le_max_right _ _) (le_maxSeq _ rs)
    · exact ih h

theorem maxSeq_le {m b : Nat} {rs : List ρ} (hm : m ≤ b) (h : ∀ r ∈ rs, seq r ≤ b) : maxSeq m rs ≤ b := by
  induction rs generalizing m with
  | nil => exact hm
  | cons r rs ih =>
    exact ih (max_le hm (h r List.mem_cons_self)) fun r' hr' => h r' (List.mem_cons_of_mem _ hr')

/-! ### Windows -/

variable {S : Nat → Summary ρ} {floor : Nat}

theorem Window.le {id j : Nat} {c c' : Cursor} {rs : List ρ} (h : Window S floor id c rs j c') : id ≤ j := by
  induction h with
  | nil => exact le_rfl
  | snoc _ _ ih => omega

/-- A window depends only on the blocks inside it. -/
theorem Window.congr {T : Nat → Summary ρ} {id j : Nat} {c c' : Cursor} {rs : List ρ} (h : Window S floor id c rs j c')
    (hT : ∀ i, id ≤ i → i < j → T i = S i) : Window T floor id c rs j c' := by
  induction h with
  | nil => exact .nil
  | @snoc rs j c' h hp ih =>
    have hj : T j = S j := hT j h.le (by omega)
    rw [← hj] at hp ⊢
    exact .snoc (ih fun i hi hij => hT i hi (by omega)) hp

theorem Window.trans {id j k : Nat} {c c' c'' : Cursor} {rs ss : List ρ} (h : Window S floor id c rs j c')
    (h' : Window S floor j c' ss k c'') : Window S floor id c (rs ++ ss) k c'' := by
  induction h' with
  | nil => simpa using h
  | snoc _ hp ih => rw [← List.append_assoc]; exact .snoc ih hp

theorem walk_pass {n id : Nat} {c : Cursor} (h : passes floor c (S id) = true) :
    walk S floor (n + 1) id c =
      ((S id).live floor ++ (walk S floor n (id + 1) (c.next (S id))).1, (walk S floor n (id + 1) (c.next (S id))).2) := by
  rw [walk, if_pos h]

theorem walk_stop {n id : Nat} {c : Cursor} (h : passes floor c (S id) = false) :
    walk S floor (n + 1) id c = ([], id, c) := by
  rw [walk, if_neg (by simp [h])]

/-- The walk over a window replays it and goes on at its end. -/
theorem Window.walk_eq {id j n : Nat} {c c' : Cursor} {rs : List ρ} (h : Window S floor id c rs j c')
    (hn : j ≤ id + n) :
    walk S floor n id c = (rs ++ (walk S floor (id + n - j) j c').1, (walk S floor (id + n - j) j c').2) := by
  induction h with
  | nil => simp
  | @snoc rs j c' h hp ih =>
    have hstep : id + n - j = (id + n - (j + 1)) + 1 := by omega
    rw [ih (by omega), hstep, walk_pass hp]
    simp

/-- What the walk passes is a window. -/
theorem walk_window (S : Nat → Summary ρ) (floor n id : Nat) (c : Cursor) :
    Window S floor id c (walk S floor n id c).1 (walk S floor n id c).2.1 (walk S floor n id c).2.2 ∧
      (walk S floor n id c).2.1 ≤ id + n := by
  induction n generalizing id c with
  | zero => exact ⟨.nil, by simp [walk]⟩
  | succ n ih =>
    cases hp : passes floor c (S id) with
    | true =>
      rw [walk_pass hp]
      obtain ⟨hw, hle⟩ := ih (id + 1) (c.next (S id))
      have h1 : Window S floor id c ([] ++ (S id).live floor) (id + 1) (c.next (S id)) := .snoc .nil hp
      exact ⟨by simpa using h1.trans hw, by simp only; omega⟩
    | false =>
      rw [walk_stop hp]
      exact ⟨.nil, by simp⟩

/-- What holds of every live record in the blocks of a window holds of all it replays. -/
theorem Window.forall_of_live {id j : Nat} {c c' : Cursor} {rs : List ρ} {P : ρ → Prop} (h : Window S floor id c rs j c')
    (hd : ∀ i, id ≤ i → i < j → ∀ r ∈ (S i).live floor, P r) : ∀ r ∈ rs, P r := by
  induction h with
  | nil => simp
  | @snoc rs j c' h _ ih =>
    intro r hr
    rcases List.mem_append.mp hr with hr | hr
    · exact ih (fun i hi hij => hd i hi (by omega)) r hr
    · exact hd j h.le (by omega) r hr

theorem Window.le_max {id j : Nat} {c c' : Cursor} {rs : List ρ} (h : Window S floor id c rs j c') :
    c.max ≤ c'.max ∧ ∀ r ∈ rs, seq r ≤ c'.max := by
  induction h with
  | nil => exact ⟨le_rfl, by simp⟩
  | @snoc rs j c' _ _ ih =>
    have hle : c'.max ≤ (c'.next (S j)).max := le_maxSeq _ _
    refine ⟨le_trans ih.1 hle, ?_⟩
    intro r hr
    rcases List.mem_append.mp hr with hr | hr
    · exact le_trans (ih.2 r hr) hle
    · exact seq_le_maxSeq (List.mem_of_mem_filter hr)

/-- What a window has seen is what it replays, and numbers up to the floor. -/
theorem Window.max_le_replayed {id j b : Nat} {c c' : Cursor} {rs : List ρ} (h : Window S floor id c rs j c') (hc : c.max ≤ b)
    (hf : floor ≤ b) (hb : ∀ r ∈ rs, seq r ≤ b) : c'.max ≤ b := by
  induction h with
  | nil => exact hc
  | @snoc rs j c' _ _ ih =>
    refine maxSeq_le (ih fun r hr => hb r (List.mem_append_left _ hr)) fun r hr => ?_
    by_cases hlive : floor < seq r
    · exact hb r (List.mem_append_right _ (List.mem_filter.mpr ⟨hr, by simpa using hlive⟩))
    · exact (not_lt.mp hlive).trans hf

theorem Window.max_le {id j b : Nat} {c c' : Cursor} {rs : List ρ} (h : Window S floor id c rs j c') (hc : c.max ≤ b)
    (hb : ∀ i, id ≤ i → i < j → ∀ r ∈ (S i).groups, seq r ≤ b) : c'.max ≤ b := by
  induction h with
  | nil => exact hc
  | @snoc rs j c' h _ ih =>
    exact maxSeq_le (ih fun i hi hij => hb i hi (by omega)) (hb j h.le (by omega))

theorem Window.newer_le {id j : Nat} {c c' : Cursor} {rs : List ρ} (h : Window S floor id c rs j c')
    (hc : ∀ f ∈ c.newer, f ≤ c.max) : ∀ f ∈ c'.newer, f ≤ c'.max := by
  induction h with
  | nil => exact hc
  | snoc _ _ _ =>
    intro f hf
    simp only [Cursor.next] at hf ⊢
    split at hf <;> simp at hf
    omega

/-- A block whose records are newer than everything before it, with at least one complete group, is passed. -/
theorem passes_of_newer {c : Cursor} {b : Summary ρ} (hg : b.groups ≠ []) (hf : ∀ r ∈ b.groups, floor < seq r)
    (hn : ∀ f ∈ c.newer, ∀ r ∈ b.groups, f < seq r) : passes floor c b = true := by
  obtain ⟨r, gs, hr⟩ := List.exists_cons_of_ne_nil hg
  have hmem : r ∈ b.groups := by simp [hr]
  have hfirst : b.firstSeq = some (seq r) := by
    obtain ⟨t, ht⟩ := closed_isPrefix b.recs
    have hr' : closed b.recs = r :: gs := hr
    rw [Summary.firstSeq, ← ht, hr']
    rfl
  have hfol : follows c b = true := by
    unfold follows
    cases hc : c.newer with
    | none => rfl
    | some f => simpa [hfirst] using hn f (by simp [hc]) r hmem
  have hlive : r ∈ b.live floor := List.mem_filter.mpr ⟨hmem, by simpa using hf r hmem⟩
  simp [passes, hfol, hg, List.ne_nil_of_mem hlive]

end GroupLog
