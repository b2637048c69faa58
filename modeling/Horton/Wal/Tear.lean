import Horton.Wal.Scan

/-!
# Torn block writes

A block write that is cut short leaves a prefix of the new block over the old one.  Which records scan in the mixture?
Some of the new records, then whatever the old bytes give.  The closing records among the latter are old closing
records of that block, unless the mixture passes for a record that nobody wrote there (`summary_tear`).

`Written` is the history of a block: the records that a write put at some offset and that stood there in full when
the write ended.
-/

namespace Horton

open BlockDev GroupLog

/-- The record stands in full at offset `o` of the block. -/
def decodesAt (b : Bytes) (o : Nat) (r : Record) : Prop := decodeRecord (b.drop o) = some ⟨r, r.len⟩

/-- Records one after the other from offset `o` on, each with its offset. -/
def placed (o : Nat) : List Record → List (Nat × Record)
  | [] => []
  | r :: rs => (o, r) :: placed (o + r.len) rs

/-- The block with the records `rs` at its start and zeros behind them. -/
def blockOf (size : Nat) (rs : List Record) : Bytes := encodeRecords rs ++ Bytes.zeros (size - lens rs)

/-- A write put the record at this place of the block, and it stood there when the write ended. -/
def Written (d : Device) (j o : Nat) (r : Record) : Prop :=
  ∃ w ∈ d.writes, w.block = j ∧ (o, r) ∈ placed 0 (summary w.data).recs ∧ decodesAt w.after o r

/-- Bytes that were never written as a record at their place do not pass the record check. -/
def NoForge (d : Device) (j : Nat) : Prop := ∀ o r, decodesAt (d.blocks j) o r → Written d j o r

/-! ### Placed records -/

theorem mem_placed {o o' : Nat} {r : Record} {rs : List Record} :
    (o', r) ∈ placed o rs ↔ ∃ pre post, rs = pre ++ r :: post ∧ o' = o + lens pre := by
  induction rs generalizing o with
  | nil => simp [placed]
  | cons a rs ih =>
    rw [placed, List.mem_cons, ih]
    constructor
    · rintro (h | ⟨pre, post, rfl, rfl⟩)
      · obtain ⟨rfl, rfl⟩ := Prod.mk.inj h
        exact ⟨[], rs, rfl, by simp⟩
      · exact ⟨a :: pre, post, rfl, by rw [lens_cons]; omega⟩
    · rintro ⟨pre, post, h, rfl⟩
      cases pre with
      | nil =>
        obtain ⟨rfl, rfl⟩ := List.cons.inj h
        exact Or.inl (by simp)
      | cons b pre =>
        obtain ⟨rfl, rfl⟩ := List.cons.inj h
        exact Or.inr ⟨pre, post, rfl, by rw [lens_cons]; omega⟩

theorem prefix_of_lens_le {l p q : List Record} (hp : p <+: l) (hq : q <+: l) (h : lens p ≤ lens q) : p <+: q := by
  rcases List.prefix_or_prefix_of_prefix hp hq with hpq | ⟨t, rfl⟩
  · exact hpq
  · have ht : lens t = 0 := by rw [lens_append] at h; omega
    rw [lens_eq_zero.mp ht, List.append_nil]

/-! ### Scanning what decodes -/

private theorem decodeRecord_of_allZero {buf : Bytes} (h : Bytes.allZero buf = true) : decodeRecord buf = none := by
  rw [Bytes.allZero_iff] at h
  by_contra hc
  obtain ⟨d, hd⟩ := Option.ne_none_iff_exists'.mp hc
  obtain ⟨m, hm, hmagic⟩ := decodeRecord_magic hd
  have hlen := Bytes.length_slice hm
  obtain ⟨-, hm⟩ := Bytes.slice_eq_some hm
  have hz : m = Bytes.zeros 2 := by
    rw [h, Bytes.drop_zeros, Bytes.zeros, List.take_replicate] at hm
    rw [hm] at hlen ⊢
    rw [List.length_replicate] at hlen
    rw [hlen, Bytes.zeros]
  rw [hz] at hmagic
  exact absurd hmagic (by decide)

theorem scanRecord_of_decodesAt {b : Bytes} {o : Nat} {r : Record} (h : decodesAt b o r) :
    scanRecord (b.drop o) = .record ⟨r, r.len⟩ := by
  have hz : Bytes.allZero (b.drop o) = false := by
    by_contra hc
    rw [decodesAt, decodeRecord_of_allZero (by simpa using hc)] at h
    simp at h
  simp [scanRecord, hz, show decodeRecord (b.drop o) = some ⟨r, r.len⟩ from h]

theorem decodesAt_lt {b : Bytes} {o : Nat} {r : Record} (h : decodesAt b o r) : o + r.len ≤ b.length := by
  have := (decodeRecord_totalLen h).2
  have hpos := r.len_pos
  simp only [List.length_drop] at this
  omega

theorem decodesAt_inj {b : Bytes} {o : Nat} {r s : Record} (hr : decodesAt b o r) (hs : decodesAt b o s) : r = s := by
  have := hr.symm.trans hs
  exact (Decoded.mk.inj (Option.some.inj this)).1

/-- A record that stands in the block is the bytes of its encoding. -/
theorem decodesAt_iff {b : Bytes} {o : Nat} {r : Record} : decodesAt b o r ↔ r.WF ∧ (b.drop o).take r.len = encodeRecord r := by
  constructor
  · intro h
    exact ⟨(decodeRecord_exact h).1, (decodeRecord_exact h).2.2⟩
  · rintro ⟨hwf, he⟩
    rw [decodesAt, ← List.take_append_drop r.len (b.drop o), he]
    exact decodeRecord_encodeRecord hwf _

/-- Every record starts with the low byte of the magic. -/
private theorem decodesAt_head {b : Bytes} {o : Nat} {r : Record} (h : decodesAt b o r) : (0x73, o) ∈ b.zipIdx := by
  obtain ⟨m, hm, hmagic⟩ := decodeRecord_magic h
  have hm0 : m = Bytes.leBytes 2 WAL_MAGIC := by rw [← hmagic, ← Bytes.length_slice hm, Bytes.leBytes_leNat]
  obtain ⟨-, hm⟩ := Bytes.slice_eq_some hm
  have hhead := congrArg List.head? (hm.symm.trans hm0)
  rw [List.head?_take, if_neg (by decide), List.head?_drop] at hhead
  rw [List.mem_zipIdx_iff_getElem?]
  simpa [Bytes.leBytes, WAL_MAGIC] using hhead

private theorem noForge_iff {d : Device} {j : Nat} : NoForge d j ↔
    ∀ p ∈ (d.blocks j).zipIdx, p.1 = 0x73 → ∀ x ∈ decodeRecord ((d.blocks j).drop p.2), x.totalLen = x.record.len →
      ∃ w ∈ d.writes, w.block = j ∧ (p.2, x.record) ∈ placed 0 (summary w.data).recs ∧
        decodeRecord (w.after.drop p.2) = some ⟨x.record, x.record.len⟩ := by
  constructor
  · rintro h ⟨b, o⟩ - - ⟨r, n⟩ hx hn
    obtain rfl : n = r.len := hn
    exact h o r hx
  · intro h o r hr
    exact h (0x73, o) (decodesAt_head hr) rfl ⟨r, r.len⟩ hr rfl

instance (d : Device) (j : Nat) : Decidable (NoForge d j) := decidable_of_iff' _ noForge_iff

/-- Every scanned record stands somewhere in the block. -/
theorem decodesAt_of_mem_scanFrom {fuel : Nat} {last : Option Nat} {b : Bytes} {o : Nat} {r : Record}
    (h : r ∈ (scanFrom fuel last (b.drop o)).recs) : ∃ o', o ≤ o' ∧ decodesAt b o' r := by
  induction fuel generalizing last o with
  | zero => simp [scanFrom] at h
  | succ fuel ih =>
    unfold scanFrom at h
    split at h
    · simp at h
    · split at h
      · rename_i d hd
        obtain ⟨hlen, -⟩ := scanRecord_len hd
        split at h
        · simp at h
        · rcases List.mem_cons.mp h with rfl | h
          · exact ⟨o, le_rfl, by rw [decodesAt, scanRecord_eq_record hd, ← hlen]⟩
          · rw [List.drop_drop] at h
            obtain ⟨o', ho', hr⟩ := ih h
            exact ⟨o', by omega, hr⟩
      · simp at h
      · simp at h

theorem decodesAt_of_mem_summary {b : Bytes} {r : Record} (h : r ∈ (summary b).recs) : ∃ o, decodesAt b o r := by
  rw [summary] at h
  obtain ⟨o, -, hd⟩ := decodesAt_of_mem_scanFrom (o := 0) (by simpa using h)
  exact ⟨o, hd⟩

theorem exists_placed {o : Nat} {r : Record} {rs : List Record} (h : r ∈ rs) : ∃ o', o ≤ o' ∧ (o', r) ∈ placed o rs := by
  obtain ⟨pre, post, rfl⟩ := List.append_of_mem h
  exact ⟨o + lens pre, by omega, mem_placed.mpr ⟨pre, post, rfl, rfl⟩⟩

/-- The scanned records stand at their places. -/
theorem decodesAt_of_placed_summary {b : Bytes} {o : Nat} {r : Record} (h : (o, r) ∈ placed 0 (summary b).recs) :
    decodesAt b o r := by
  obtain ⟨pre, post, hr, rfl⟩ := mem_placed.mp h
  have key : ∀ (pre : List Record) (b : Bytes), Spells b (pre ++ r :: post) → decodesAt b (lens pre) r := by
    intro pre
    induction pre with
    | nil => exact fun b hs => by simpa [decodesAt] using scanRecord_eq_record hs.1
    | cons a pre ih =>
      intro b hs
      have := ih _ hs.2
      rwa [decodesAt, List.drop_drop] at this
  rw [Nat.zero_add]
  exact key pre b (hr ▸ spells_scanFrom _ _ _)

/-- A record that stands where the scan is, newer than the last one, is scanned next. -/
theorem scanFrom_cons {fuel : Nat} {last : Option Nat} {b : Bytes} {o : Nat} {r : Record} (h : decodesAt b o r)
    (hl : ∀ l ∈ last, l < r.seq) (hf : b.length - o ≤ fuel) :
    ∃ fuel', b.length - (o + r.len) ≤ fuel' ∧ scanFrom fuel last (b.drop o) =
      ⟨r :: (scanFrom fuel' (some r.seq) (b.drop (o + r.len))).recs,
        (scanFrom fuel' (some r.seq) (b.drop (o + r.len))).torn⟩ := by
  have hlt := decodesAt_lt h
  have hpos := r.len_pos
  obtain ⟨fuel, rfl⟩ := Nat.exists_eq_succ_of_ne_zero (show fuel ≠ 0 by omega)
  refine ⟨fuel, by omega, ?_⟩
  have hne : (b.drop o).isEmpty = false := by simp; omega
  have hlast : last.any (r.seq ≤ ·) = false := by
    cases last with
    | none => rfl
    | some l => simpa using hl l rfl
  rw [scanFrom, hne, scanRecord_of_decodesAt h]
  simp [hlast, List.drop_drop]

/-! ### A whole block -/

theorem decodesAt_append {pre post : List Record} {r : Record} (h : r.WF) (tail : Bytes) :
    decodesAt (encodeRecords (pre ++ r :: post) ++ tail) (lens pre) r := by
  rw [decodesAt, encodeRecords_append, encodeRecords_cons, List.append_assoc, ← length_encodeRecords,
    List.drop_left, List.append_assoc]
  exact decodeRecord_encodeRecord h _

private theorem scanFrom_zeros (fuel : Nat) (last : Option Nat) (n : Nat) :
    scanFrom fuel last (Bytes.zeros n) = ⟨[], false⟩ := by
  cases fuel with
  | zero => rfl
  | succ fuel =>
    rw [scanFrom]
    split
    · rfl
    · simp [scanRecord]

/-- A block that was written whole scans as the records in it. -/
theorem summary_blockOf {size : Nat} {rs : List Record} (hwf : ∀ r ∈ rs, r.WF) (hinc : Increasing rs) :
    summary (blockOf size rs) = ⟨rs, false⟩ := by
  have key : ∀ (rs pre : List Record) (fuel : Nat) (last : Option Nat), (∀ r ∈ rs, r.WF) → Increasing rs →
      (∀ l ∈ last, ∀ r ∈ rs, l < r.seq) → (blockOf size (pre ++ rs)).length - lens pre ≤ fuel →
      scanFrom fuel last ((blockOf size (pre ++ rs)).drop (lens pre)) = ⟨rs, false⟩ := by
    intro rs
    induction rs with
    | nil =>
      intro pre fuel last _ _ _ _
      rw [blockOf, List.append_nil, ← length_encodeRecords, List.drop_left]
      exact scanFrom_zeros _ _ _
    | cons r rs ih =>
      intro pre fuel last hwf hinc hlast hf
      have hr : decodesAt (blockOf size (pre ++ r :: rs)) (lens pre) r :=
        decodesAt_append (hwf r List.mem_cons_self) _
      obtain ⟨fuel', hf', he⟩ := scanFrom_cons hr (fun l hl => hlast l hl r List.mem_cons_self) hf
      have hinc' := List.pairwise_cons.mp hinc
      have := ih (pre ++ [r]) fuel' (some r.seq) (fun r' hr' => hwf r' (List.mem_cons_of_mem _ hr')) hinc'.2
        (by rintro l hl r' hr'; obtain rfl := Option.some.inj hl; exact hinc'.1 r' hr')
        (by simpa [List.append_assoc] using hf')
      rw [List.append_assoc, List.singleton_append, lens_append, lens_cons, lens_nil, Nat.add_zero] at this
      rw [he, this]
  have := key rs [] (blockOf size rs).length none hwf hinc (by simp) (by simp)
  rwa [List.nil_append, lens_nil, List.drop_zero] at this

/-! ### A torn block -/

section Tear

variable {recs : List Record} {pad old : Bytes} {k : Nat}

/-- A new record whose bytes have all landed stands in the torn block. -/
theorem decodesAt_of_landed {pre post : List Record} {r : Record} (hwf : r.WF) (h : lens pre + r.len ≤ k) :
    decodesAt (Bytes.tear k (encodeRecords (pre ++ r :: post) ++ pad) old) (lens pre) r := by
  have hsplit : encodeRecords (pre ++ r :: post) ++ pad =
      (encodeRecords pre ++ encodeRecord r) ++ (encodeRecords post ++ pad) := by simp
  have hlen : (encodeRecords pre ++ encodeRecord r).length ≤ k := by
    rw [List.length_append, length_encodeRecords, length_encodeRecord]; exact h
  rw [decodesAt, hsplit, Bytes.tear_append hlen, List.append_assoc, ← length_encodeRecords, List.drop_left]
  exact decodeRecord_encodeRecord hwf _

/-- Behind the landed bytes the torn block is the old one. -/
theorem decodesAt_of_old {new : Bytes} {o : Nat} {r : Record} (h : decodesAt (Bytes.tear k new old) o r)
    (hk : k ≤ o) (hlen : new.length = old.length) : decodesAt old o r := by
  rwa [decodesAt, Bytes.drop_tear hlen hk] at h

variable {Old : Nat → Record → Prop}

/-- What is known about the two blocks: `Old` covers the closing records that stand in the old block, everything that
closes a group in the torn block is one of them or a new record in its place, and the new closing records behind the
first are not among the old ones. -/
structure TearHyps (Old : Nat → Record → Prop) (recs : List Record) (pad old : Bytes) (k : Nat) : Prop where
  wf : ∀ r ∈ recs, r.WF
  len_eq : (encodeRecords recs ++ pad).length = old.length
  in_old : ∀ o r, decodesAt old o r → r.more = false → Old o r
  in_torn : ∀ o r, decodesAt (Bytes.tear k (encodeRecords recs ++ pad) old) o r → r.more = false →
    Old o r ∨ (o, r) ∈ placed 0 recs
  fresh : ∀ o r, (o, r) ∈ placed 0 recs → 0 < o → r.more = false → ¬ Old o r

/-- A new closing record that stands in the torn block stands behind landed records only: the record at any earlier
new offset stands there too. -/
theorem TearHyps.landed_before (h : TearHyps Old recs pad old k) {pre mid post : List Record} {a r : Record}
    (hrecs : recs = pre ++ a :: mid ++ r :: post) (hr : r.more = false)
    (hd : decodesAt (Bytes.tear k (encodeRecords recs ++ pad) old) (lens (pre ++ a :: mid)) r) :
    decodesAt (Bytes.tear k (encodeRecords recs ++ pad) old) (lens pre) a := by
  have hpl : (lens (pre ++ a :: mid), r) ∈ placed 0 recs :=
    mem_placed.mpr ⟨pre ++ a :: mid, post, hrecs, by simp⟩
  have hpos : 0 < lens (pre ++ a :: mid) := by have := a.len_pos; simp; omega
  have hk : lens (pre ++ a :: mid) < k := by
    by_contra hc
    exact h.fresh _ _ hpl hpos hr (h.in_old _ _ (decodesAt_of_old hd (by omega) h.len_eq) hr)
  have ha : a ∈ recs := by rw [hrecs]; simp
  rw [hrecs, List.append_assoc, List.cons_append]
  refine decodesAt_of_landed (h.wf a ha) ?_
  simp only [lens_append, lens_cons] at hk
  omega

private theorem scanFrom_tear (h : TearHyps Old recs pad old k) (rs pre : List Record) (hrecs : recs = pre ++ rs)
    (fuel : Nat) (last : Option Nat) (hinc : Increasing rs) (hlast : ∀ l ∈ last, ∀ r ∈ rs, l < r.seq)
    (hf : (Bytes.tear k (encodeRecords recs ++ pad) old).length - lens pre ≤ fuel) :
    ∃ n junk torn,
      scanFrom fuel last ((Bytes.tear k (encodeRecords recs ++ pad) old).drop (lens pre)) = ⟨rs.take n ++ junk, torn⟩ ∧
      (∀ r ∈ junk, r.more = false → ∃ o, lens (pre ++ rs.take n) ≤ o ∧ Old o r) ∧
      ∀ o r, (o, r) ∈ placed (lens pre) rs → r.more = false →
        decodesAt (Bytes.tear k (encodeRecords recs ++ pad) old) o r → r ∈ rs.take n := by
  induction rs generalizing pre fuel last with
  | nil =>
    refine ⟨0, _, _, by simp; rfl, ?_, by simp [placed]⟩
    intro r hr hm
    obtain ⟨o, ho, hd⟩ := decodesAt_of_mem_scanFrom hr
    refine ⟨o, by simpa using ho, (h.in_torn o r hd hm).resolve_right ?_⟩
    -- A new record would end before this offset.
    intro hpl
    obtain ⟨p, q, hpq, hoe⟩ := mem_placed.mp hpl
    have := r.len_pos
    have hl : lens recs = lens pre := by rw [hrecs]; simp
    rw [hpq] at hl
    simp at hl
    omega
  | cons a rs ih =>
    by_cases ha : decodesAt (Bytes.tear k (encodeRecords recs ++ pad) old) (lens pre) a
    · have hinc' := List.pairwise_cons.mp hinc
      obtain ⟨fuel', hf', he⟩ := scanFrom_cons ha (fun l hl => hlast l hl a List.mem_cons_self) hf
      obtain ⟨n, junk, torn, hs, hj, hn⟩ := ih (pre ++ [a]) (by simp [hrecs]) fuel' (some a.seq) hinc'.2
        (by rintro l hl r hr; obtain rfl := Option.some.inj hl; exact hinc'.1 r hr) (by simpa using hf')
      rw [show lens (pre ++ [a]) = lens pre + a.len by simp] at hs hn
      refine ⟨n + 1, junk, torn, by rw [he, hs]; simp, ?_, ?_⟩
      · intro r hr hm
        obtain ⟨o, ho, hold⟩ := hj r hr hm
        exact ⟨o, by simpa using ho, hold⟩
      · intro o r hpl hm hd
        rw [placed] at hpl
        rcases List.mem_cons.mp hpl with heq | hpl
        · obtain ⟨-, rfl⟩ := Prod.mk.inj heq
          simp
        · exact List.mem_cons_of_mem _ (hn o r hpl hm hd)
    · -- The scan leaves the new records here.
      have hout : ∀ o r, lens pre ≤ o → decodesAt (Bytes.tear k (encodeRecords recs ++ pad) old) o r →
          r.more = false → (o, r) ∉ placed 0 recs := by
        intro o r ho hd hm hpl
        obtain ⟨p, q, hpq, hoe⟩ := mem_placed.mp hpl
        rw [Nat.zero_add] at hoe
        subst hoe
        obtain ⟨m, hm1⟩ : pre <+: p := prefix_of_lens_le ⟨a :: rs, hrecs.symm⟩ ⟨r :: q, hpq.symm⟩ ho
        subst hm1
        have hm2 : a :: rs = m ++ r :: q := by
          rw [hrecs, List.append_assoc] at hpq
          exact List.append_cancel_left hpq
        cases m with
        | nil =>
          obtain ⟨rfl, rfl⟩ := List.cons.inj hm2
          exact ha (by simpa using hd)
        | cons b m =>
          obtain ⟨rfl, rfl⟩ := List.cons.inj hm2
          exact ha (h.landed_before hpq hm hd)
      refine ⟨0, _, _, by simp; rfl, ?_, ?_⟩
      · intro r hr hm
        obtain ⟨o, ho, hd⟩ := decodesAt_of_mem_scanFrom hr
        exact ⟨o, by simpa using ho, (h.in_torn o r hd hm).resolve_right (hout o r ho hd hm)⟩
      · intro o r hpl hm hd
        obtain ⟨p, q, hpq, hoe⟩ := mem_placed.mp hpl
        exact absurd (mem_placed.mpr ⟨pre ++ p, q, by rw [hrecs, hpq]; simp, by simp; omega⟩)
          (hout o r (by omega) hd hm)

/-- The torn block scans as some of the new records and then records whose closing ones are old; the new closing
records that stand in it are all scanned. -/
theorem summary_tear (h : TearHyps Old recs pad old k) (hinc : Increasing recs) :
    ∃ n junk torn,
      summary (Bytes.tear k (encodeRecords recs ++ pad) old) = ⟨recs.take n ++ junk, torn⟩ ∧
      (∀ r ∈ junk, r.more = false → ∃ o, lens (recs.take n) ≤ o ∧ Old o r) ∧
      ∀ o r, (o, r) ∈ placed 0 recs → r.more = false →
        decodesAt (Bytes.tear k (encodeRecords recs ++ pad) old) o r → r ∈ recs.take n := by
  have := scanFrom_tear h recs [] rfl _ none hinc (by simp) le_rfl
  simpa only [lens_nil, List.drop_zero, List.nil_append, Nat.sub_zero, summary] using this

end Tear

end Horton
