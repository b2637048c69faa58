import Horton.Lib.GroupLog
import Horton.Wal.Writer

/-!
# What recovery reads

`summary` says what one block holds: its records in order, as far as they scan, and whether something other than clean
padding follows.  The two passes of `recoverFrom` over a block are determined by it (`pass1_eq`, `pass2Loop_eq`), and
the whole of `recoverFrom` replays exactly what the walk of `GroupLog` over the summaries replays (`recoverFrom_spec`).
-/

namespace Horton

open BlockDev GroupLog

instance : LogRecord Record := ⟨Record.seq, Record.more⟩

/-- The records that scan one after the other from the start of `bytes`, with sequence numbers above `last`. -/
def scanFrom : Nat → Option Nat → Bytes → Summary Record
  | 0, _, _ => ⟨[], false⟩
  | fuel + 1, last, bytes =>
    if bytes.isEmpty then ⟨[], false⟩
    else match scanRecord bytes with
      | .record d =>
        if last.any (d.record.seq ≤ ·) then ⟨[], true⟩
        else
          let s := scanFrom fuel (some d.record.seq) (bytes.drop d.totalLen)
          ⟨d.record :: s.recs, s.torn⟩
      | .cleanEnd => ⟨[], false⟩
      | .corrupt => ⟨[], true⟩

/-- What a block holds. -/
def summary (block : Bytes) : Summary Record := scanFrom block.length none block

/-- The blocks of a device as recovery sees them. -/
def summaries (d : Device) (i : Nat) : Summary Record := summary (d.blocks i)

/-- The number of bytes that records take. -/
def lens (rs : List Record) : Nat := (rs.map Record.len).sum

@[simp] theorem lens_nil : lens [] = 0 := rfl

@[simp] theorem lens_cons (r : Record) (rs : List Record) : lens (r :: rs) = r.len + lens rs := rfl

@[simp] theorem lens_append (rs ss : List Record) : lens (rs ++ ss) = lens rs + lens ss := by simp [lens]

theorem length_encodeRecords (rs : List Record) : (encodeRecords rs).length = lens rs := by
  induction rs with
  | nil => rfl
  | cons r rs ih => simp [length_encodeRecord, ih]

theorem len_le_lens {rs : List Record} {r : Record} (h : r ∈ rs) : r.len ≤ lens rs := by
  obtain ⟨before, behind, rfl⟩ := List.append_of_mem h
  rw [lens_append, lens_cons]
  omega

theorem lens_eq_zero {rs : List Record} : lens rs = 0 ↔ rs = [] := by
  cases rs with
  | nil => simp
  | cons r rs => simp [Nat.ne_of_gt r.len_pos]

theorem length_lt_lens {rs : List Record} (h : rs ≠ []) : rs.length < lens rs := by
  have h2 : ∀ r : Record, 2 ≤ r.len := by
    intro r
    simp only [Record.len, WAL_RECORD_OVERHEAD, WAL_HEADER_LEN, WAL_TRAILER_LEN]; omega
  induction rs with
  | nil => exact absurd rfl h
  | cons r rs ih =>
    have := h2 r
    cases rs with
    | nil => simp; omega
    | cons a rs => have := ih (by simp); rw [lens_cons]; simp at this ⊢; omega

theorem lens_lt_iff {rs ss : List Record} (h : ss <+: rs) : lens ss < lens rs ↔ ss.length < rs.length := by
  obtain ⟨t, rfl⟩ := h
  cases t with
  | nil => simp
  | cons a t => have := a.len_pos; simp; omega

/-- The records `rs` stand one after the other at the start of `bytes`. -/
def Spells (bytes : Bytes) : List Record → Prop
  | [] => True
  | r :: rs => scanRecord bytes = .record ⟨r, r.len⟩ ∧ Spells (bytes.drop r.len) rs

/-! ### Scanning -/

theorem scanRecord_len {bytes : Bytes} {d : Decoded} (h : scanRecord bytes = .record d) :
    d = ⟨d.record, d.record.len⟩ ∧ d.record.len ≤ bytes.length := by
  obtain ⟨hlen, hle⟩ := decodeRecord_totalLen (scanRecord_eq_record h)
  exact ⟨by rw [← hlen], by omega⟩

theorem spells_scanFrom (fuel : Nat) (last : Option Nat) (bytes : Bytes) :
    Spells bytes (scanFrom fuel last bytes).recs := by
  induction fuel generalizing last bytes with
  | zero => trivial
  | succ fuel ih =>
    unfold scanFrom
    split
    · trivial
    · split
      · rename_i d hd
        obtain ⟨hlen, -⟩ := scanRecord_len hd
        split
        · trivial
        · refine ⟨by rw [hd]; exact congrArg Scan.record hlen, ?_⟩
          have htot : d.totalLen = d.record.len := by rw [hlen]
          rw [htot]
          exact ih _ _
      · trivial
      · trivial

theorem lens_le_of_spells {bytes : Bytes} {rs : List Record} (h : Spells bytes rs) : lens rs ≤ bytes.length := by
  induction rs generalizing bytes with
  | nil => simp
  | cons r rs ih =>
    have hle := (scanRecord_len h.1).2
    have := ih h.2
    simp only [List.length_drop] at this
    simp only at hle
    rw [lens_cons]
    omega

theorem Spells.of_isPrefix {bytes : Bytes} {rs ss : List Record} (h : Spells bytes rs) (hp : ss <+: rs) : Spells bytes ss := by
  induction ss generalizing bytes rs with
  | nil => trivial
  | cons r ss ih =>
    obtain ⟨t, rfl⟩ := hp
    exact ⟨h.1, ih h.2 ⟨t, rfl⟩⟩

/-- Scanned records carry increasing sequence numbers, all above `last`. -/
theorem scanFrom_increasing (fuel : Nat) (last : Option Nat) (bytes : Bytes) :
    Increasing (scanFrom fuel last bytes).recs ∧ ∀ r ∈ (scanFrom fuel last bytes).recs, ∀ l ∈ last, l < r.seq := by
  induction fuel generalizing last bytes with
  | zero => exact ⟨List.Pairwise.nil, by simp [scanFrom]⟩
  | succ fuel ih =>
    unfold scanFrom
    split
    · exact ⟨List.Pairwise.nil, by simp⟩
    · split
      · rename_i d hd
        split
        · exact ⟨List.Pairwise.nil, by simp⟩
        · rename_i hlast
          obtain ⟨hinc, hgt⟩ := ih (some d.record.seq) (bytes.drop d.totalLen)
          have hd' : ∀ l ∈ last, l < d.record.seq := by
            intro l hl
            rw [Option.mem_def.mp hl] at hlast
            simpa using hlast
          refine ⟨List.Pairwise.cons (fun r hr => hgt r hr _ rfl) hinc, ?_⟩
          intro r hr l hl
          rcases List.mem_cons.mp hr with rfl | hr
          · exact hd' l hl
          · exact lt_trans (hd' l hl) (hgt r hr _ rfl)
      · exact ⟨List.Pairwise.nil, by simp⟩
      · exact ⟨List.Pairwise.nil, by simp⟩

theorem summary_increasing (block : Bytes) : Increasing (summary block).recs := (scanFrom_increasing _ _ _).1

/-! ### The first pass -/

private theorem pass1Loop_eq (block : Bytes) (fuel : Nat) (p : WalWriter.Pass1) (hp : p.torn = false) :
    let s := scanFrom fuel p.lastSeq (block.drop p.off)
    let q := WalWriter.pass1Loop block fuel p
    q.off = p.off + lens s.recs ∧ q.complete = (if closed s.recs = [] then p.complete else p.off + lens (closed s.recs)) ∧
      q.torn = s.torn ∧ q.firstSeq = p.firstSeq.or s.firstSeq := by
  induction fuel generalizing p with
  | zero => simp [WalWriter.pass1Loop, scanFrom, closed, hp, Summary.firstSeq]
  | succ fuel ih =>
    have hemp : (block.drop p.off).isEmpty = true ↔ ¬ p.off < block.length := by simp
    unfold scanFrom WalWriter.pass1Loop
    by_cases hoff : p.off < block.length
    · rw [if_pos hoff, if_neg (by simp [hoff])]
      cases hs : scanRecord (block.drop p.off) with
      | cleanEnd => simp [closed, hp, Summary.firstSeq]
      | corrupt => simp [closed, Summary.firstSeq]
      | record d =>
        obtain ⟨hlen, -⟩ := scanRecord_len hs
        have htot : d.totalLen = d.record.len := by rw [hlen]
        by_cases hlast : p.lastSeq.any (d.record.seq ≤ ·) = true
        · simp [hlast, closed, Summary.firstSeq]
        · simp only [hlast, Bool.false_eq_true, if_false, htot]
          have h := ih ⟨p.off + d.record.len, if d.record.more then p.complete else p.off + d.record.len, p.torn,
            p.firstSeq.or (some d.record.seq), some d.record.seq⟩ hp
          simp only [← List.drop_drop] at h
          generalize scanFrom fuel (some d.record.seq) (List.drop d.record.len (List.drop p.off block)) = s at h
          obtain ⟨h1, h2, h3, h4⟩ := h
          refine ⟨by rw [h1]; simp; omega, ?_, h3, ?_⟩
          · rw [h2]
            rcases hc : closed s.recs with _ | ⟨c, cs⟩
            · cases hm : d.record.more <;> simp [closed, hc, LogRecord.more, hm]
            · simp [closed, hc]; omega
          · rw [h4]; simp [Summary.firstSeq]; rfl
    · rw [if_neg hoff, if_pos (hemp.mpr hoff)]
      simp [closed, hp, Summary.firstSeq]

/-- The first pass finds the end of the complete groups, whether the block is torn, and its first number. -/
theorem pass1_eq (block : Bytes) :
    (WalWriter.pass1 block).complete = lens (summary block).groups ∧
      (WalWriter.pass1 block).torn = (summary block).isTorn ∧
      (WalWriter.pass1 block).firstSeq = (summary block).firstSeq := by
  obtain ⟨h1, h2, h3, h4⟩ := pass1Loop_eq block block.length ⟨0, 0, false, none, none⟩ rfl
  simp only [List.drop_zero, Nat.zero_add] at h1 h2 h3 h4
  have hs : scanFrom block.length none block = summary block := rfl
  rw [hs] at h1 h2 h3 h4
  have hcomp : (if closed (summary block).recs = [] then 0 else lens (closed (summary block).recs)) =
      lens (summary block).groups := by
    rw [Summary.groups]
    split
    · rename_i hc; rw [hc]; rfl
    · rfl
  have hlt := lens_lt_iff (closed_isPrefix (summary block).recs)
  refine ⟨by simp only [WalWriter.pass1]; rw [h2, hcomp], ?_, by simp only [WalWriter.pass1]; rw [h4]; rfl⟩
  simp only [WalWriter.pass1, Summary.isTorn]
  rw [h1, h2, h3, hcomp]
  rw [Summary.groups]
  simp [hlt]

/-! ### The second pass -/

section Replay

variable (sh : Shape)

/-- Replays records in order; `none` at the first one that does not fit. -/
def replayAll (table : MemTable) (rs : List Record) : Except Error MemTable :=
  rs.foldlM (WalWriter.replayRecord sh) table

/-- What the second pass returns after replaying `rs`. -/
private def pass2Result (id floor : Nat) (table : MemTable) (st : RecoverState) (live : Nat) (rs : List Record) :
    Except Error (MemTable × RecoverState × Nat) :=
  let fresh := rs.filter (fun r => floor < r.seq)
  match replayAll sh table fresh with
  | .ok t => .ok (t, { st with records := st.records + fresh.length, maxSeq := maxSeq st.maxSeq rs }, live + fresh.length)
  | .error _ => .error (.corruptWal id)

private theorem pass2Loop_eq (block : Bytes) (id floor fuel pos : Nat) (table : MemTable) (st : RecoverState) (live : Nat)
    (rs : List Record) (h : Spells (block.drop pos) rs) (hf : rs.length < fuel) :
    WalWriter.pass2Loop sh block id (pos + lens rs) floor fuel pos table st live =
      pass2Result sh id floor table st live rs := by
  induction rs generalizing fuel pos table st live with
  | nil =>
    obtain ⟨fuel, rfl⟩ := Nat.exists_eq_succ_of_ne_zero (Nat.ne_of_gt hf)
    rw [WalWriter.pass2Loop]
    simp [pass2Result, replayAll, maxSeq, pure, Except.pure]
  | cons r rs ih =>
    obtain ⟨fuel, rfl⟩ := Nat.exists_eq_succ_of_ne_zero (Nat.ne_of_gt (Nat.zero_lt_of_lt hf))
    have hpos : pos < pos + lens (r :: rs) := by have := r.len_pos; rw [lens_cons]; omega
    have hsp : Spells (block.drop (pos + r.len)) rs := by rw [← List.drop_drop]; exact h.2
    have hend : pos + lens (r :: rs) = pos + r.len + lens rs := by rw [lens_cons]; omega
    have hmax : (if r.seq > st.maxSeq then r.seq else st.maxSeq) = max st.maxSeq r.seq := by
      rw [max_def]; split <;> split <;> omega
    rw [WalWriter.pass2Loop, if_pos hpos, h.1]
    simp only [hmax]
    by_cases hfl : r.seq > floor
    · rw [if_pos hfl]
      cases hr : WalWriter.replayRecord sh table r with
      | error e => simp [pass2Result, replayAll, hfl, hr, bind, Except.bind]
      | ok t =>
        rw [hend]
        simp only
        rw [ih fuel (pos + r.len) t _ (live + 1) hsp (by simpa using hf)]
        simp only [pass2Result, replayAll, maxSeq]
        simp [hfl, hr, bind, Except.bind, LogRecord.seq]
        split
        · simp; omega
        · rfl
    · rw [if_neg hfl, hend, ih fuel (pos + r.len) table _ live hsp (by simpa using hf)]
      simp [pass2Result, maxSeq, hfl, LogRecord.seq]

/-! ### The block loop -/

/-- What `recoverLoop` returns, in terms of the walk over the block summaries. -/
def LoopPost (floor : Nat) (table : MemTable) (st : RecoverState) (w : WalWriter) (d : Device)
    (r : List Record × Nat × GroupLog.Cursor) (start stop : Nat) :
    Outcome Error (MemTable × RecoverState) → WalWriter → Device → Prop := fun o w' d' =>
  ReadsOnly d d' ∧ w' = { w with stage := w'.stage } ∧
    (w'.stage = w.stage ∨ ∃ i, start ≤ i ∧ i < stop ∧ w'.stage = d.blocks i) ∧
    match o with
    | .ok (t, st') =>
      replayAll sh table r.1 = .ok t ∧ start + st'.blocksUsed = r.2.1 ∧ st'.records = st.records + r.1.length ∧
        r.2.2.max ≤ st'.maxSeq ∧ st'.maxSeq ≤ max r.2.2.max floor
    | .err e =>
      (e = .device ∧ ∃ k, Fate.fail k ∈ d.fates) ∨
        ((∃ id, e = .corruptWal id) ∧ ∃ e', replayAll sh table r.1 = .error e')
    | .cut => ∃ k, Fate.cut k ∈ d.fates
    | .dropped => ∃ k, Fate.drop k ∈ d.fates

theorem replayAll_append (table : MemTable) (rs ss : List Record) :
    replayAll sh table (rs ++ ss) = (replayAll sh table rs).bind (replayAll sh · ss) := by
  simp only [replayAll, List.foldlM_append]
  rfl

theorem recoverLoop_spec (start floor fuel : Nat) (table : MemTable) (st : RecoverState) (newer : Option Nat)
    (w : WalWriter) (d : Device) :
    (WalWriter.recoverLoop sh start floor fuel table st newer).wp
      (LoopPost sh floor table st w d
        (walk (fun i => summary (d.blocks i)) floor fuel (start + st.blocksUsed) ⟨st.maxSeq, newer⟩) start
        (start + st.blocksUsed + fuel)) w d := by
  induction fuel generalizing table st newer w d with
  | zero =>
    refine ⟨⟨rfl, rfl, List.suffix_rfl⟩, rfl, Or.inl rfl, ?_⟩
    exact ⟨rfl, rfl, rfl, le_rfl, le_max_left _ _⟩
  | succ fuel ih =>
    rw [WalWriter.recoverLoop, Prog.wp_bind, Prog.wp_readBlock]
    cases hfate : d.fate with
    | fail k => exact ⟨readsOnly_advance d, rfl, Or.inl rfl, Or.inl ⟨rfl, k, Device.mem_fates_of_fate hfate (by simp)⟩⟩
    | cut k => exact ⟨readsOnly_advance d, rfl, Or.inl rfl, k, Device.mem_fates_of_fate hfate (by simp)⟩
    | drop k => exact ⟨readsOnly_advance d, rfl, Or.inl rfl, k, Device.mem_fates_of_fate hfate (by simp)⟩
    | ok =>
      simp only [Prog.wp_bind, Prog.wp_modify, Prog.andThen_ok]
      generalize hid : start + st.blocksUsed = id
      obtain ⟨hcomp, htorn, hfirst⟩ := pass1_eq (d.blocks id)
      have hfol : (newer.any fun f => (WalWriter.pass1 (d.blocks id)).firstSeq.all (· ≤ f)) =
          !follows ⟨st.maxSeq, newer⟩ (summary (d.blocks id)) := by
        rw [hfirst, follows]
        cases newer with
        | none => rfl
        | some f =>
          cases (summary (d.blocks id)).firstSeq with
          | none => rfl
          | some n => by_cases h : f < n <;> simp [h, not_le.mpr, not_lt.mp]
      rw [hfol, hcomp, htorn]
      have hread : d.blocks id = w.stage ∨ ∃ i, start ≤ i ∧ i < id + (fuel + 1) ∧ d.blocks id = d.blocks i :=
        Or.inr ⟨id, by omega, by omega, rfl⟩
      -- The walk stops here: nothing is replayed, and stale records are all the block added to the maximum.
      have hstop : passes floor ⟨st.maxSeq, newer⟩ (summary (d.blocks id)) = false → ∀ st' : RecoverState,
          st'.blocksUsed = st.blocksUsed → st'.records = st.records → st.maxSeq ≤ st'.maxSeq →
          st'.maxSeq ≤ max st.maxSeq floor →
          LoopPost sh floor table st w d
            (walk (fun i => summary (d.blocks i)) floor (fuel + 1) id ⟨st.maxSeq, newer⟩) start (id + (fuel + 1))
            (.ok (table, st')) { w with stage := d.blocks id } d.advance := by
        intro hp st' h1 h2 h3 h4
        rw [walk_stop (S := fun i => summary (d.blocks i)) hp]
        exact ⟨readsOnly_advance d, rfl, hread, rfl, by rw [h1, hid], by simpa using h2, h3, h4⟩
      by_cases hf : follows ⟨st.maxSeq, newer⟩ (summary (d.blocks id)) = true
      swap
      · rw [if_pos (by simpa using hf)]
        exact hstop (by simp [passes, hf]) st rfl rfl le_rfl (le_max_left _ _)
      rw [if_neg (by simp [hf])]
      by_cases hg : (summary (d.blocks id)).groups = []
      · rw [if_pos (lens_eq_zero.mpr hg)]
        exact hstop (by simp [passes, hg]) st rfl rfl le_rfl (le_max_left _ _)
      rw [if_neg (fun h => hg (lens_eq_zero.mp h)), Prog.wp_bind]
      have hsp : Spells ((d.blocks id).drop 0) (summary (d.blocks id)).groups :=
        (spells_scanFrom _ _ _).of_isPrefix (closed_isPrefix _)
      have hlen : (summary (d.blocks id)).groups.length < (d.blocks id).length :=
        lt_of_lt_of_le (length_lt_lens hg) (by simpa using lens_le_of_spells hsp)
      have h2 := pass2Loop_eq sh (d.blocks id) id floor (d.blocks id).length 0 table st 0 _ hsp hlen
      rw [Nat.zero_add] at h2
      rw [h2, pass2Result]
      have hfresh : (summary (d.blocks id)).groups.filter (fun r => decide (floor < r.seq)) =
          (summary (d.blocks id)).live floor := rfl
      simp only [hfresh]
      cases hr : replayAll sh table ((summary (d.blocks id)).live floor) with
      | error e =>
        have hlive : (summary (d.blocks id)).live floor ≠ [] := by
          intro hl; rw [hl] at hr; simp [replayAll, pure, Except.pure] at hr
        have hp : passes floor ⟨st.maxSeq, newer⟩ (summary (d.blocks id)) = true := by
          simp [passes, hf, hg, hlive]
        rw [walk_pass (S := fun i => summary (d.blocks i)) hp]
        refine ⟨readsOnly_advance d, rfl, hread, Or.inr ⟨⟨id, rfl⟩, e, ?_⟩⟩
        rw [replayAll_append, hr]
        rfl
      | ok t =>
        simp only [Prog.wp_ofExcept_ok, Prog.andThen_ok, Nat.zero_add]
        by_cases hstale : ((summary (d.blocks id)).live floor).length = 0 ∧ (summary (d.blocks id)).isTorn = false
        · obtain ⟨hl, ht⟩ := hstale
          have hl' := List.length_eq_zero_iff.mp hl
          have htable : t = table := by rw [hl'] at hr; simpa [replayAll, pure, Except.pure] using hr.symm
          have hle : ∀ r ∈ (summary (d.blocks id)).groups, r.seq ≤ floor := by
            intro r hr
            by_contra hc
            have : r ∈ (summary (d.blocks id)).live floor := List.mem_filter.mpr ⟨hr, by simpa [LogRecord.seq] using hc⟩
            simp [hl'] at this
          rw [if_pos (by simp [hl, ht]), htable]
          refine hstop (by simp [passes, hl', ht]) _ rfl (by simp [hl]) (le_maxSeq _ _) ?_
          exact maxSeq_le (le_max_left _ _) fun r hr => le_trans (hle r hr) (le_max_right _ _)
        · have hp : passes floor ⟨st.maxSeq, newer⟩ (summary (d.blocks id)) = true := by
            have hlt : (summary (d.blocks id)).live floor ≠ [] ∨ (summary (d.blocks id)).isTorn = true := by
              by_contra hc
              simp only [not_or, not_not, Bool.not_eq_true] at hc
              exact hstale ⟨by simp [hc.1], hc.2⟩
            rcases hlt with h | h <;> simp [passes, hf, hg, h]
          rw [if_neg (by simpa using hstale), walk_pass (S := fun i => summary (d.blocks i)) hp]
          have h := ih t ⟨st.records + ((summary (d.blocks id)).live floor).length,
            maxSeq st.maxSeq (summary (d.blocks id)).groups, st.blocksUsed + 1⟩
            (if (summary (d.blocks id)).isTorn = true then some (maxSeq st.maxSeq (summary (d.blocks id)).groups) else none)
            { w with stage := d.blocks id } d.advance
          refine Prog.wp_mono h ?_
          rintro o w' d' ⟨h1, h2, h3, h4⟩
          rw [show start + (st.blocksUsed + 1) = id + 1 by omega] at h3 h4
          refine ⟨h1.advance_trans, h2, Or.inr ?_, ?_⟩
          · rcases h3 with h3 | ⟨i, hi, hi', h3⟩
            · exact ⟨id, by omega, by omega, h3⟩
            · exact ⟨i, hi, by omega, h3⟩
          have hadd : ∀ ss, replayAll sh table ((summary (d.blocks id)).live floor ++ ss) = replayAll sh t ss := by
            intro ss; rw [replayAll_append, hr]; rfl
          have hfates : ∀ f, f ∈ d.advance.fates → f ∈ d.fates := fun f => Device.mem_advance_fates
          cases o with
          | ok x =>
            obtain ⟨h5, h6, h7, h8, h9⟩ := h4
            exact ⟨by rw [hadd]; exact h5, h6, by rw [List.length_append, ← Nat.add_assoc]; exact h7, h8, h9⟩
          | err e =>
            rcases h4 with ⟨he, k, hk⟩ | ⟨he, e', he'⟩
            · exact Or.inl ⟨he, k, hfates _ hk⟩
            · exact Or.inr ⟨he, e', by rw [hadd]; exact he'⟩
          | cut => exact h4.imp fun k hk => hfates _ hk
          | dropped => exact h4.imp fun k hk => hfates _ hk

/-- How `recoverFrom` from block `start` ends, in terms of what the walk `r` over the block summaries replays and where it
stops. -/
def RecoverPost (table : MemTable) (start floor : Nat) (w : WalWriter) (d : Device) (r : List Record × Nat × GroupLog.Cursor) :
    Outcome Error (MemTable × RecoverState) → WalWriter → Device → Prop := fun o w' d' =>
  ReadsOnly d d' ∧ w'.walStart = w.walStart ∧ w'.walEnd = w.walEnd ∧
    (w'.stage = w.stage ∨ ∃ i, start ≤ i ∧ i < w.walEnd ∧ w'.stage = d.blocks i) ∧
    match o with
    | .ok (t, st) =>
      replayAll sh table r.1 = .ok t ∧ st.records = r.1.length ∧ r.2.2.max ≤ st.maxSeq ∧
        st.maxSeq ≤ max r.2.2.max floor ∧
        w' = ⟨w.walStart, w.walEnd, w'.stage, 0, sh.BLOCK, r.2.1, st.maxSeq, false⟩
    | .err e =>
      (e = .device ∧ ∃ k, Fate.fail k ∈ d.fates) ∨
        ((∃ id, e = .corruptWal id) ∧ ∃ e', replayAll sh table r.1 = .error e')
    | .cut => ∃ k, Fate.cut k ∈ d.fates
    | .dropped => ∃ k, Fate.drop k ∈ d.fates

/-- What `recoverFrom` does: it replays what the walk from block `start` replays, resumes where the walk stops, and
fails only on a device error or when a record does not fit the table. -/
theorem recoverFrom_spec (table : MemTable) (start floor : Nat) (w : WalWriter) (d : Device) :
    (WalWriter.recoverFrom sh table start floor).wp
      (RecoverPost sh table start floor w d
        (walk (summaries d) floor (w.walEnd - start) start ⟨0, none⟩)) w d := by
  simp only [WalWriter.recoverFrom, Prog.wp_bind, Prog.wp_get, Prog.andThen_ok]
  refine Prog.wp_mono (recoverLoop_spec sh start floor (w.walEnd - start) table ⟨0, 0, 0⟩ none w d) ?_
  rintro o w' d' ⟨h1, h2, h3, h4⟩
  have hstart : w'.walStart = w.walStart := by rw [h2]
  have hend : w'.walEnd = w.walEnd := by rw [h2]
  have hstage : w'.stage = w.stage ∨ ∃ i, start ≤ i ∧ i < w.walEnd ∧ w'.stage = d.blocks i :=
    h3.imp id (by rintro ⟨i, hi, hi', h⟩; exact ⟨i, hi, by simp only at hi'; omega, h⟩)
  cases o with
  | ok x =>
    obtain ⟨h5, h6, h7, h8, h9⟩ := h4
    rw [Prog.andThen_ok]
    refine ⟨h1, hstart, hend, hstage, h5, h7.trans (Nat.zero_add _), h8, h9, ?_⟩
    show WalWriter.mk w'.walStart w'.walEnd _ _ _ (start + x.2.blocksUsed) _ _ = _
    rw [h6, hstart, hend]
    rfl
  | err e => exact ⟨h1, hstart, hend, hstage, h4⟩
  | cut => exact ⟨h1, hstart, hend, hstage, h4⟩
  | dropped => exact ⟨h1, hstart, hend, hstage, h4⟩

end Replay

end Horton
