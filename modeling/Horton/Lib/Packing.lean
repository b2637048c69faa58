import Mathlib.Algebra.GroupWithZero.Nat
import Mathlib.Data.List.Induction

/-!
# Greedy packing

Elements are put into bins in the order they come: `fits bin a` says whether `a` still goes into the open bin, and when it
does not the bin is closed and `a` opens the next one.  A `Packing` is the state in between: the closed bins and the open
one.  `pack` runs over a list, and what a packing rule keeps of one bin holds of all bins (`forall_mem_bins`).
-/

/-- The closed bins, in order, and the open one. -/
structure Packing (α : Type) where
  closed : List (List α)
  current : List α
  deriving DecidableEq, Repr

namespace Packing

variable {α : Type} (fits : List α → α → Bool)

def empty : Packing α := ⟨[], []⟩

def push (p : Packing α) (a : α) : Packing α :=
  if fits p.current a then ⟨p.closed, p.current ++ [a]⟩ else ⟨p.closed ++ [p.current], [a]⟩

def pack (l : List α) : Packing α := l.foldl (push fits) empty

/-- All bins that hold something; the open one comes last. -/
def bins (p : Packing α) : List (List α) := if p.current = [] then p.closed else p.closed ++ [p.current]

@[simp] theorem pack_nil : pack fits [] = empty := rfl

theorem pack_concat (l : List α) (a : α) : pack fits (l ++ [a]) = (pack fits l).push fits a := by
  rw [pack, List.foldl_append]
  rfl

variable {fits}

theorem push_fits {p : Packing α} {a : α} (h : fits p.current a = true) :
    p.push fits a = ⟨p.closed, p.current ++ [a]⟩ := by rw [push, if_pos h]

theorem push_full {p : Packing α} {a : α} (h : fits p.current a = false) :
    p.push fits a = ⟨p.closed ++ [p.current], [a]⟩ := by rw [push, if_neg (by simp [h])]

theorem current_push (p : Packing α) (a : α) : (p.push fits a).current ≠ [] := by
  cases h : fits p.current a with
  | true => simp [push_fits h]
  | false => simp [push_full h]

/-- Nothing is lost and the order is kept. -/
theorem flatten_push (p : Packing α) (a : α) :
    (p.push fits a).closed.flatten ++ (p.push fits a).current = p.closed.flatten ++ p.current ++ [a] := by
  cases h : fits p.current a with
  | true => simp [push_fits h]
  | false => simp [push_full h]

theorem flatten_pack (l : List α) : (pack fits l).closed.flatten ++ (pack fits l).current = l := by
  induction l using List.reverseRecOn with
  | nil => rfl
  | append_singleton l a ih => rw [pack_concat, flatten_push, ih]

theorem flatten_bins (p : Packing α) : p.bins.flatten = p.closed.flatten ++ p.current := by
  unfold bins
  split
  · rename_i h
    simp [h]
  · simp

theorem current_eq_nil_iff (l : List α) : (pack fits l).current = [] ↔ l = [] := by
  induction l using List.reverseRecOn with
  | nil => simp [empty]
  | append_singleton l a _ =>
    rw [pack_concat]
    simp [current_push]

/-- A bin is only closed by an element that does not fit it; when every element fits an empty bin, no empty one is closed. -/
theorem closed_ne_nil {l : List α} (h : ∀ a ∈ l, fits [] a = true) : ∀ b ∈ (pack fits l).closed, b ≠ [] := by
  induction l using List.reverseRecOn with
  | nil => simp [empty]
  | append_singleton l a ih =>
    have ih' := ih fun x hx => h x (by simp [hx])
    rw [pack_concat]
    cases hf : fits (pack fits l).current a with
    | true => rwa [push_fits hf]
    | false =>
      rw [push_full hf]
      intro b hb
      rcases List.mem_append.mp hb with hb | hb
      · exact ih' b hb
      · obtain rfl := List.mem_singleton.mp hb
        intro hnil
        rw [hnil, h a (by simp)] at hf
        cases hf

/-- What holds of a bin with one element and survives every element that fits holds of every bin. -/
theorem forall_mem_bins {P : List α → Prop} {l : List α} (hone : ∀ a ∈ l, P [a])
    (hmore : ∀ b, P b → ∀ a ∈ l, fits b a = true → P (b ++ [a])) (hfit : ∀ a ∈ l, fits [] a = true) :
    ∀ b ∈ (pack fits l).bins, P b := by
  suffices hp : (∀ b ∈ (pack fits l).closed, P b) ∧ ((pack fits l).current ≠ [] → P (pack fits l).current) by
    intro b hb
    unfold bins at hb
    split at hb
    · exact hp.1 b hb
    · rename_i hne
      rcases List.mem_append.mp hb with hb | hb
      · exact hp.1 b hb
      · obtain rfl := List.mem_singleton.mp hb
        exact hp.2 hne
  induction l using List.reverseRecOn with
  | nil => simp [empty]
  | append_singleton l a ih =>
    obtain ⟨ihc, iho⟩ := ih (fun x hx => hone x (by simp [hx])) (fun b hb x hx => hmore b hb x (by simp [hx]))
      (fun x hx => hfit x (by simp [hx]))
    have ha : a ∈ l ++ [a] := by simp
    rw [pack_concat]
    cases hf : fits (pack fits l).current a with
    | true =>
      rw [push_fits hf]
      refine ⟨ihc, fun _ => ?_⟩
      by_cases hnil : (pack fits l).current = []
      · rw [hnil]
        exact hone a ha
      · exact hmore _ (iho hnil) a ha hf
    | false =>
      have hne : (pack fits l).current ≠ [] := by
        intro hnil
        rw [hnil, hfit a ha] at hf
        cases hf
      rw [push_full hf]
      refine ⟨fun b hb => ?_, fun _ => hone a ha⟩
      rcases List.mem_append.mp hb with hb | hb
      · exact ihc b hb
      · obtain rfl := List.mem_singleton.mp hb
        exact iho hne

/-! ### How many bins -/

theorem bins_ne_nil {l : List α} (h : ∀ a ∈ l, fits [] a = true) : ∀ b ∈ (pack fits l).bins, b ≠ [] := by
  intro b hb
  unfold bins at hb
  split at hb
  · exact closed_ne_nil h b hb
  · rename_i hne
    rcases List.mem_append.mp hb with hb | hb
    · exact closed_ne_nil h b hb
    · exact List.mem_singleton.mp hb ▸ hne

/-- Every bin holds something. -/
theorem length_bins_le {l : List α} (h : ∀ a ∈ l, fits [] a = true) : (pack fits l).bins.length ≤ l.length := by
  have hlen : ∀ bs : List (List α), (∀ b ∈ bs, b ≠ []) → bs.length ≤ bs.flatten.length := by
    intro bs
    induction bs with
    | nil => simp
    | cons b bs ih =>
      intro hne
      have hb : 0 < b.length := List.length_pos_iff.mpr (hne b (by simp))
      have := ih fun x hx => hne x (by simp [hx])
      rw [List.flatten_cons, List.length_append, List.length_cons]
      omega
  have := hlen _ (bins_ne_nil h)
  rwa [flatten_bins, flatten_pack] at this

theorem length_bins_le_closed (p : Packing α) : p.bins.length ≤ p.closed.length + 1 := by
  unfold bins
  split <;> simp

/-- Where an element that does not fit finds the bin filled to more than `room - emax`, or with `per` elements, the closed
bins are counted by the sizes and by the elements. -/
theorem length_closed_le {size : α → Nat} {room emax per : Nat} {l : List α} (hroom : emax ≤ room) (hper : 0 < per)
    (hfull : ∀ b a, fits b a = false → room < (b.map size).sum + size a ∨ per ≤ b.length) (hsize : ∀ a ∈ l, size a ≤ emax) :
    (pack fits l).closed.length ≤ (l.map size).sum / (room - emax + 1) + l.length / per := by
  -- The closed bins split into those full by size and those full by count.
  have hsplit : ∃ x y, (pack fits l).closed.length = x + y ∧
      x * (room - emax + 1) ≤ ((pack fits l).closed.flatten.map size).sum ∧ y * per ≤ (pack fits l).closed.flatten.length := by
    induction l using List.reverseRecOn with
    | nil => exact ⟨0, 0, rfl, by simp, by simp⟩
    | append_singleton l a ih =>
      obtain ⟨x, y, hxy, hx, hy⟩ := ih fun b hb => hsize b (by simp [hb])
      rw [pack_concat]
      cases hf : fits (pack fits l).current a with
      | true =>
        rw [push_fits hf]
        exact ⟨x, y, hxy, hx, hy⟩
      | false =>
        have ha := hsize a (by simp)
        rw [push_full hf]
        simp only [List.length_append, List.length_singleton, List.flatten_append, List.flatten_singleton, List.map_append,
          List.sum_append]
        rcases hfull _ _ hf with hbytes | hcount
        · refine ⟨x + 1, y, by omega, ?_, by omega⟩
          rw [Nat.succ_mul]
          omega
        · refine ⟨x, y + 1, by omega, by omega, ?_⟩
          rw [Nat.succ_mul]
          omega
  obtain ⟨x, y, hxy, hx, hy⟩ := hsplit
  have hsum : ((pack fits l).closed.flatten.map size).sum ≤ (l.map size).sum := by
    conv_rhs => rw [← @flatten_pack α fits l, List.map_append, List.sum_append]
    omega
  have hlen : (pack fits l).closed.flatten.length ≤ l.length := by
    conv_rhs => rw [← @flatten_pack α fits l, List.length_append]
    omega
  have h1 : x ≤ (l.map size).sum / (room - emax + 1) := (Nat.le_div_iff_mul_le (by omega)).mpr (by omega)
  have h2 : y ≤ l.length / per := (Nat.le_div_iff_mul_le hper).mpr (by omega)
  omega

/-- Where any two elements share a bin, a closed bin holds at least two. -/
theorem two_mul_length_closed_le {l : List α} (hone : ∀ a ∈ l, fits [] a = true) (htwo : ∀ a ∈ l, ∀ b ∈ l, fits [a] b = true) :
    2 * (pack fits l).closed.length ≤ (pack fits l).closed.flatten.length := by
  induction l using List.reverseRecOn with
  | nil => simp [empty]
  | append_singleton l a ih =>
    have ih' := ih (fun x hx => hone x (by simp [hx])) (fun x hx y hy => htwo x (by simp [hx]) y (by simp [hy]))
    rw [pack_concat]
    cases hf : fits (pack fits l).current a with
    | true => rwa [push_fits hf]
    | false =>
      rw [push_full hf]
      have hcur : 2 ≤ (pack fits l).current.length := by
        rcases hc : (pack fits l).current with _ | ⟨x, _ | ⟨y, rest⟩⟩
        · rw [hc, hone a (by simp)] at hf
          cases hf
        · have hx : x ∈ l := by
            rw [← @flatten_pack α fits l, hc]
            simp
          rw [hc, htwo x (by simp [hx]) a (by simp)] at hf
          cases hf
        · simp
      simp only [List.length_append, List.length_singleton, List.flatten_append, List.flatten_singleton]
      omega

/-! ### Prefixes -/

variable (fits)

/-- Pushing on keeps the closed bins. -/
theorem closed_prefix_foldl (p : Packing α) (l : List α) : p.closed <+: (l.foldl (push fits) p).closed := by
  induction l generalizing p with
  | nil => exact List.prefix_refl _
  | cons a l ih =>
    refine List.IsPrefix.trans ?_ (ih (p.push fits a))
    cases h : fits p.current a with
    | true =>
      have hclosed : (p.push fits a).closed = p.closed := by rw [push_fits h]
      exact hclosed ▸ List.prefix_refl _
    | false =>
      have hclosed : (p.push fits a).closed = p.closed ++ [p.current] := by rw [push_full h]
      exact hclosed ▸ List.prefix_append _ _

/-- Pushing on leaves an open bin that holds something at the front of a bin in its place. -/
theorem current_prefix_foldl {p : Packing α} (hne : p.current ≠ []) (l : List α) :
    ∃ b, (l.foldl (push fits) p).bins[p.closed.length]? = some b ∧ p.current <+: b := by
  induction l generalizing p with
  | nil => exact ⟨p.current, by simp [bins, hne], List.prefix_refl _⟩
  | cons a l ih =>
    cases h : fits p.current a with
    | true =>
      obtain ⟨b, hb, hpre⟩ := @ih (p.push fits a) (current_push p a)
      rw [push_fits h] at hb hpre
      refine ⟨b, ?_, (List.prefix_append _ _).trans hpre⟩
      rw [List.foldl_cons, push_fits h]
      exact hb
    | false =>
      refine ⟨p.current, ?_, List.prefix_refl _⟩
      have hclosed := closed_prefix_foldl fits (p.push fits a) l
      rw [push_full h] at hclosed
      obtain ⟨rest, hrest⟩ := hclosed
      have hbins : ∃ more, (l.foldl (push fits) (p.push fits a)).bins = p.closed ++ [p.current] ++ more := by
        rw [push_full h]
        unfold bins
        rw [← hrest]
        split
        · exact ⟨rest, rfl⟩
        · exact ⟨_, List.append_assoc _ _ _⟩
      obtain ⟨more, hmore⟩ := hbins
      rw [List.foldl_cons, hmore]
      simp

end Packing
