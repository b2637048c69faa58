import Horton.Wal.Stage

/-!
# Batch operations

One queued operation of a write batch, the WAL record it becomes, and the atomic group that a whole batch becomes:
consecutive sequence numbers in queue order, every record but the last marked as followed by more.
-/

namespace Horton

open BlockDev GroupLog

/-- `expire_at` is a `u64`. -/
structure BatchOp where
  kind : Op
  key : Bytes
  val : Bytes
  expireAt : Nat
  expireLt : expireAt < 2 ^ 64
  deriving DecidableEq, Repr

namespace BatchOp

/-- The WAL record of the operation: a TTL put that never expires is a plain put. -/
def record (op : BatchOp) (seq : Nat) (more : Bool) : Record :=
  appendedRecord seq (if op.kind = .putTtl ∧ op.expireAt = 0 then .put else op.kind) op.key op.val op.expireAt more

variable (sh : Shape)

/-- How the write paths append the operation. -/
def append (op : BatchOp) (seq : Nat) (more : Bool) : Prog WalWriter Error Unit :=
  if op.kind = .putTtl then WalWriter.appendGroupedTtl sh seq op.key op.val op.expireAt more
  else WalWriter.appendGrouped sh seq op.kind op.key op.val more

/-- The bytes that `Db::write` counts for the operation. -/
def needWal (op : BatchOp) : Nat :=
  WAL_RECORD_OVERHEAD + op.key.length + op.val.length + (if op.kind = .putTtl then 8 else 0)

end BatchOp

/-- The records of an atomic group numbered from `seq` on. -/
def groupRecords : Nat → List BatchOp → List Record
  | _, [] => []
  | seq, op :: ops => op.record seq (!ops.isEmpty) :: groupRecords (seq + 1) ops

/-- Appends a group record by record. -/
def appendGroup (sh : Shape) : Nat → List BatchOp → Prog WalWriter Error Unit
  | _, [] => pure ()
  | seq, op :: ops => do
    op.append sh seq (!ops.isEmpty)
    appendGroup sh (seq + 1) ops

/-! ### Groups and numbers -/

/-- Records of which exactly the last closes its group. -/
def IsGroup (g : List Record) : Prop := ∃ init last, g = init ++ [last] ∧ (∀ r ∈ init, r.more = true) ∧ last.more = false

/-- The records carry the numbers after `n`, one after the other. -/
def Numbered : Nat → List Record → Prop
  | _, [] => True
  | n, r :: rs => r.seq = n + 1 ∧ Numbered (n + 1) rs

theorem numbered_append {n : Nat} {rs ss : List Record} :
    Numbered n (rs ++ ss) ↔ Numbered n rs ∧ Numbered (n + rs.length) ss := by
  induction rs generalizing n with
  | nil => simp [Numbered]
  | cons r rs ih =>
    simp only [List.cons_append, Numbered, ih, List.length_cons, and_assoc]
    rw [show n + 1 + rs.length = n + (rs.length + 1) by omega]

theorem Numbered.bounds {n : Nat} {rs : List Record} (h : Numbered n rs) :
    ∀ r ∈ rs, n < r.seq ∧ r.seq ≤ n + rs.length := by
  induction rs generalizing n with
  | nil => simp
  | cons a rs ih =>
    intro r hr
    rcases List.mem_cons.mp hr with rfl | hr
    · have := h.1; simp; omega
    · have := ih h.2 r hr; simp; omega

theorem Numbered.increasing {n : Nat} {rs : List Record} (h : Numbered n rs) : Increasing rs := by
  induction rs generalizing n with
  | nil => exact List.Pairwise.nil
  | cons a rs ih =>
    refine List.Pairwise.cons (fun r hr => ?_) (ih h.2)
    have := (h.2.bounds r hr).1
    have := h.1
    show a.seq < r.seq
    omega

theorem numbered_groupRecords (n : Nat) (ops : List BatchOp) : Numbered n (groupRecords (n + 1) ops) := by
  induction ops generalizing n with
  | nil => trivial
  | cons op ops ih => exact ⟨rfl, ih (n + 1)⟩

theorem length_groupRecords (n : Nat) (ops : List BatchOp) : (groupRecords n ops).length = ops.length := by
  induction ops generalizing n with
  | nil => rfl
  | cons op ops ih => simp [groupRecords, ih]

theorem mem_groupRecords {n : Nat} {ops : List BatchOp} {r : Record} (h : r ∈ groupRecords n ops) :
    ∃ op more, r = BatchOp.record op r.seq more := by
  induction ops generalizing n with
  | nil => simp [groupRecords] at h
  | cons op ops ih =>
    rcases List.mem_cons.mp h with rfl | h
    · exact ⟨op, _, rfl⟩
    · exact ih h

theorem lens_groupRecords_le (n : Nat) (ops : List BatchOp) :
    lens (groupRecords n ops) ≤ (ops.map BatchOp.needWal).sum := by
  induction ops generalizing n with
  | nil => simp [groupRecords]
  | cons op ops ih =>
    have h : (op.record n (!ops.isEmpty)).len ≤ op.needWal := by
      rw [Record.len, Record.length_extra]
      simp only [BatchOp.needWal, BatchOp.record, appendedRecord, List.length_take]
      by_cases hk : op.kind = .putTtl
      · by_cases he : op.expireAt = 0 <;> simp [hk, he]
      · by_cases hd : op.kind = .delete <;> simp [hk, hd]
    have := ih (n + 1)
    rw [groupRecords, lens_cons, List.map_cons, List.sum_cons]
    omega

theorem isGroup_groupRecords (n : Nat) {ops : List BatchOp} (h : ops ≠ []) : IsGroup (groupRecords n ops) := by
  induction ops generalizing n with
  | nil => exact absurd rfl h
  | cons op ops ih =>
    cases ops with
    | nil => exact ⟨[], op.record n false, rfl, by simp, rfl⟩
    | cons op' ops =>
      obtain ⟨init, last, hg, hi, hl⟩ := ih (n + 1) (by simp)
      refine ⟨op.record n true :: init, last, by rw [groupRecords, hg]; rfl, ?_, hl⟩
      intro r hr
      rcases List.mem_cons.mp hr with rfl | hr
      · rfl
      · exact hi r hr

/-- The complete groups of a prefix of whole groups are whole groups. -/
theorem closed_take_flatten {gs : List (List Record)} (h : ∀ g ∈ gs, IsGroup g) (n : Nat) :
    ∃ m, closed (gs.flatten.take n) = (gs.take m).flatten := by
  induction gs generalizing n with
  | nil => exact ⟨0, by simp [closed]⟩
  | cons g gs ih =>
    obtain ⟨init, last, rfl, hi, hl⟩ := h g List.mem_cons_self
    have hg : closed (init ++ [last]) = init ++ [last] := closed_append_closing init hl
    obtain ⟨m, hm⟩ := ih (fun g' hg' => h g' (List.mem_cons_of_mem _ hg')) (n - (init ++ [last]).length)
    rw [List.flatten_cons, List.take_append]
    by_cases hn : (init ++ [last]).length ≤ n
    · rw [List.take_of_length_le hn]
      by_cases hc : closed (gs.flatten.take (n - (init ++ [last]).length)) = []
      · refine ⟨1, ?_⟩
        have hmore : ∀ r ∈ gs.flatten.take (n - (init ++ [last]).length), r.more = true := by
          intro r hr
          by_contra hm
          exact closed_ne_nil hr (by simpa [LogRecord.more] using hm) hc
        rw [closed_append_of_more hmore, hg]
        simp
      · refine ⟨m + 1, ?_⟩
        rw [closed_append _ _ hc, hm]
        simp
    · refine ⟨0, ?_⟩
      have h0 : n - (init ++ [last]).length = 0 := by omega
      have hlen : n ≤ init.length := by simp at hn; omega
      rw [h0, List.take_zero, List.append_nil, List.take_append_of_le_length hlen, List.take_zero, List.flatten_nil]
      have := @closed_append_of_more _ _ [] (init.take n) fun r hr => hi r (List.mem_of_mem_take hr)
      simpa [closed] using this

theorem closed_flatten {gs : List (List Record)} (h : ∀ g ∈ gs, IsGroup g) : closed gs.flatten = gs.flatten := by
  induction gs with
  | nil => rfl
  | cons g gs ih =>
    obtain ⟨init, last, rfl, hi, hl⟩ := h g List.mem_cons_self
    have ih' := ih fun g' hg' => h g' (List.mem_cons_of_mem _ hg')
    rw [List.flatten_cons]
    by_cases hc : gs.flatten = []
    · rw [hc, List.append_nil]; exact closed_append_closing init hl
    · rw [closed_append _ _ (by rw [ih']; exact hc), ih']

/-! ### Appending -/

variable {sh : Shape} {rs : List Record} {w : WalWriter} {d : Device}

/-- How appending the record `r` ends when the records `rs` are staged. -/
def AppendPost (sh : Shape) (rs : List Record) (r : Record) (w : WalWriter) (d : Device) :
    Outcome Error Unit → WalWriter → Device → Prop := fun o w' d' => match o with
  | .ok _ => r.key.length ≤ U16_MAX ∧ r.val.length ≤ U16_MAX ∧ r.len ≤ sh.BLOCK ∧
      ((lens rs + r.len ≤ sh.BLOCK ∧ w' = w.stageRecord r ∧ d' = d) ∨
        (sh.BLOCK < lens rs + r.len ∧ w.nextBlock < w.walEnd ∧ d.fate = .ok ∧ w' = w.wrote.stageRecord r ∧
          d' = (d.put w.nextBlock (blockOf sh.BLOCK rs) (blockOf sh.BLOCK rs)).advance))
  | .err _ => (w' = w ∧ d' = d) ∨
      (sh.BLOCK < lens rs + r.len ∧ w.nextBlock < w.walEnd ∧ ∃ k, d.fate = .fail k ∧ w' = w.sealed ∧
        d' = (d.put w.nextBlock (blockOf sh.BLOCK rs)
          (Bytes.tear k (blockOf sh.BLOCK rs) (d.blocks w.nextBlock))).advance)
  | .cut => sh.BLOCK < lens rs + r.len ∧ w.nextBlock < w.walEnd ∧ ∃ k, d.fate = .cut k ∧
      d' = (d.put w.nextBlock (blockOf sh.BLOCK rs)
        (Bytes.tear k (blockOf sh.BLOCK rs) (d.blocks w.nextBlock))).advance
  | .dropped => sh.BLOCK < lens rs + r.len ∧ w.nextBlock < w.walEnd ∧ ∃ k, d.fate = .drop k ∧ w' = w.sealed ∧
      d' = (d.put w.nextBlock (blockOf sh.BLOCK rs)
        (Bytes.tear k (blockOf sh.BLOCK rs) (d.blocks w.nextBlock))).advance

private theorem length_appendedVal (seq : Nat) (op : Op) (key val : Bytes) (expireAt : Nat) (more : Bool) :
    (appendedRecord seq op key val expireAt more).val.length = if op = .delete then 0 else val.length := by
  simp only [appendedRecord, List.length_take]
  split <;> omega

/-- The length that `append_inner` counts for a record. -/
private theorem len_appendedRecord (seq : Nat) (op : Op) (key val : Bytes) (expireAt : Nat) (more : Bool) :
    (appendedRecord seq op key val expireAt more).len =
      if op = .putTtl then recordLenTtl key.length (if op = .delete then 0 else val.length)
      else recordLen key.length (if op = .delete then 0 else val.length) := by
  rw [Record.len, Record.length_extra]
  simp only [appendedRecord, recordLenTtl, recordLen, List.length_take]
  by_cases hop : op = .putTtl
  · subst hop; simp
  · by_cases hd : op = .delete <;> simp [hop, hd]

theorem appendInner_spec (h : StageOk sh.BLOCK w rs) (seq : Nat) (op : Op) (key val : Bytes) (expireAt : Nat)
    (more : Bool) :
    (WalWriter.appendInner sh seq op key val expireAt more).wp
      (AppendPost sh rs (appendedRecord seq op key val expireAt more) w d) w d := by
  have hlen := len_appendedRecord seq op key val expireAt more
  have hval := length_appendedVal seq op key val expireAt more
  rw [← hval] at hlen
  rw [WalWriter.appendInner]
  simp only [← hval]
  simp only [← hlen]
  generalize hr : appendedRecord seq op key val expireAt more = r
  have hkey : key = r.key := by rw [← hr]; rfl
  have hrec : Record.mk seq op more key (val.take r.val.length) (if op = .putTtl then expireAt else 0) = r := by
    rw [← hr, hval]; rfl
  simp only [hrec]
  rw [hkey]
  by_cases hk : r.key.length > U16_MAX
  · rw [if_pos hk]; exact Or.inl ⟨rfl, rfl⟩
  rw [if_neg hk]
  by_cases hv : r.val.length > U16_MAX
  · rw [if_pos hv]; exact Or.inl ⟨rfl, rfl⟩
  rw [if_neg hv]
  by_cases hb : r.len > sh.BLOCK
  · rw [if_pos hb]; exact Or.inl ⟨rfl, rfl⟩
  rw [if_neg hb, Prog.wp_bind, Prog.wp_get, Prog.andThen_ok]
  rw [h.stageLen_eq]
  by_cases hfit : lens rs + r.len > sh.BLOCK
  · rw [if_pos hfit]
    cases hg : w.groupOpen with
    | true => exact Or.inl ⟨rfl, rfl⟩
    | false =>
      simp only [Bool.false_eq_true, if_false, Prog.wp_bind]
      rw [wp_writeStage, h.padded_eq]
      split
      · exact Or.inl ⟨rfl, rfl⟩
      · rename_i hnext
        have hnext' : w.nextBlock < w.walEnd := by omega
        cases hf : d.fate with
        | ok => exact ⟨by omega, by omega, by omega, Or.inr ⟨hfit, hnext', hf, rfl, rfl⟩⟩
        | fail k => exact Or.inr ⟨hfit, hnext', k, hf, rfl, rfl⟩
        | cut k => exact ⟨hfit, hnext', k, hf, rfl⟩
        | drop k => exact ⟨hfit, hnext', k, hf, rfl, rfl⟩
  · rw [if_neg hfit]
    exact ⟨by omega, by omega, by omega, Or.inl ⟨by omega, rfl, rfl⟩⟩

/-- A record longer than a block is refused. -/
theorem appendInner_long {seq : Nat} {op : Op} {key val : Bytes} {expireAt : Nat} {more : Bool}
    (h : sh.BLOCK < (appendedRecord seq op key val expireAt more).len) :
    (WalWriter.appendInner sh seq op key val expireAt more).wp (fun o w' d' => (∃ e, o = .err e) ∧ w' = w ∧ d' = d) w d := by
  have hlen := h
  rw [len_appendedRecord] at hlen
  rw [WalWriter.appendInner]
  dsimp only
  generalize (if op = .delete then 0 else val.length) = vlen at hlen ⊢
  by_cases hk : key.length > U16_MAX
  · rw [if_pos hk]
    exact ⟨⟨_, rfl⟩, rfl, rfl⟩
  by_cases hv : vlen > U16_MAX
  · rw [if_neg hk, if_pos hv]
    exact ⟨⟨_, rfl⟩, rfl, rfl⟩
  · rw [if_neg hk, if_neg hv, if_pos hlen]
    exact ⟨⟨_, rfl⟩, rfl, rfl⟩

/-- A record of checked sizes that fits behind the staged ones is staged. -/
theorem appendInner_ok (h : StageOk sh.BLOCK w rs) {seq : Nat} {op : Op} {key val : Bytes} {expireAt : Nat} {more : Bool}
    (hk : key.length ≤ U16_MAX) (hv : val.length ≤ U16_MAX)
    (hfit : lens rs + (appendedRecord seq op key val expireAt more).len ≤ sh.BLOCK) :
    WalWriter.appendInner sh seq op key val expireAt more w d =
      (.ok (), w.stageRecord (appendedRecord seq op key val expireAt more), d) := by
  have hlen := len_appendedRecord seq op key val expireAt more
  have hval : (if op = .delete then 0 else val.length) ≤ U16_MAX := by split <;> omega
  have hw : (WalWriter.appendInner sh seq op key val expireAt more).wp (fun o w' d' => (o, w', d') =
      (.ok (), w.stageRecord (appendedRecord seq op key val expireAt more), d)) w d := by
    rw [WalWriter.appendInner]
    dsimp only
    rw [← hlen, if_neg (by omega), if_neg (by omega), if_neg (by omega), Prog.wp_bind, Prog.wp_get, Prog.andThen_ok,
      h.stageLen_eq, if_neg (by omega)]
    rfl
  exact hw

/-- An operation is appended by the shared path, as the record it becomes. -/
private theorem BatchOp.append_inner (op : BatchOp) (seq : Nat) (more : Bool) : ∃ kind expireAt,
    op.append sh seq more = WalWriter.appendInner sh seq kind op.key op.val expireAt more ∧
      op.record seq more = appendedRecord seq kind op.key op.val expireAt more := by
  by_cases hp : op.kind = .putTtl
  · refine ⟨if op.expireAt = 0 then .put else .putTtl, op.expireAt, ?_, ?_⟩
    · rw [BatchOp.append, if_pos hp]
      rfl
    · simp [BatchOp.record, hp]
  · refine ⟨op.kind, 0, ?_, ?_⟩
    · rw [BatchOp.append, if_neg hp]
      rfl
    · simp [BatchOp.record, appendedRecord, hp]

theorem BatchOp.append_spec (h : StageOk sh.BLOCK w rs) (op : BatchOp) (seq : Nat) (more : Bool) :
    (op.append sh seq more).wp (AppendPost sh rs (op.record seq more) w d) w d := by
  obtain ⟨kind, expireAt, happ, hrec⟩ := @BatchOp.append_inner sh op seq more
  rw [happ, hrec]
  exact appendInner_spec h ..

theorem BatchOp.append_long {op : BatchOp} {seq : Nat} {more : Bool} (h : sh.BLOCK < (op.record seq more).len) :
    (op.append sh seq more).wp (fun o w' d' => (∃ e, o = .err e) ∧ w' = w ∧ d' = d) w d := by
  obtain ⟨kind, expireAt, happ, hrec⟩ := @BatchOp.append_inner sh op seq more
  rw [happ]
  exact appendInner_long (hrec ▸ h)

theorem BatchOp.append_ok (h : StageOk sh.BLOCK w rs) {op : BatchOp} {seq : Nat} {more : Bool}
    (hk : op.key.length ≤ U16_MAX) (hv : op.val.length ≤ U16_MAX) (hfit : lens rs + (op.record seq more).len ≤ sh.BLOCK) :
    op.append sh seq more w d = (.ok (), w.stageRecord (op.record seq more), d) := by
  obtain ⟨kind, expireAt, happ, hrec⟩ := @BatchOp.append_inner sh op seq more
  rw [happ, hrec]
  exact appendInner_ok h hk hv (hrec ▸ hfit)

/-- Where the record does not fit behind the staged ones, those become a block of the log first. -/
theorem appendInner_drain (h : StageOk sh.BLOCK w rs) (hg : w.groupOpen = false) (hroom : w.nextBlock < w.walEnd)
    (hok : d.fate = .ok) {seq : Nat} {op : Op} {key val : Bytes} {expireAt : Nat} {more : Bool}
    (hk : key.length ≤ U16_MAX) (hv : val.length ≤ U16_MAX)
    (hlen : (appendedRecord seq op key val expireAt more).len ≤ sh.BLOCK)
    (hfit : sh.BLOCK < lens rs + (appendedRecord seq op key val expireAt more).len) :
    WalWriter.appendInner sh seq op key val expireAt more w d =
      (.ok (), w.wrote.stageRecord (appendedRecord seq op key val expireAt more),
        (d.put w.nextBlock w.padded w.padded).advance) := by
  have hrlen := len_appendedRecord seq op key val expireAt more
  have hval : (if op = .delete then 0 else val.length) ≤ U16_MAX := by split <;> omega
  have hw : (WalWriter.appendInner sh seq op key val expireAt more).wp (fun o w' d' => (o, w', d') =
      (.ok (), w.wrote.stageRecord (appendedRecord seq op key val expireAt more),
        (d.put w.nextBlock w.padded w.padded).advance)) w d := by
    rw [WalWriter.appendInner]
    dsimp only
    rw [← hrlen, if_neg (by omega), if_neg (by omega), if_neg (by omega), Prog.wp_bind, Prog.wp_get, Prog.andThen_ok,
      h.stageLen_eq, if_pos hfit, hg]
    simp only [Bool.false_eq_true, if_false, Prog.wp_bind]
    rw [wp_writeStage, if_neg (by omega), hok]
    rfl
  exact hw

theorem BatchOp.append_drain (h : StageOk sh.BLOCK w rs) (hg : w.groupOpen = false) (hroom : w.nextBlock < w.walEnd)
    (hok : d.fate = .ok) {op : BatchOp} {seq : Nat} {more : Bool} (hk : op.key.length ≤ U16_MAX)
    (hv : op.val.length ≤ U16_MAX) (hlen : (op.record seq more).len ≤ sh.BLOCK)
    (hfit : sh.BLOCK < lens rs + (op.record seq more).len) :
    op.append sh seq more w d =
      (.ok (), w.wrote.stageRecord (op.record seq more), (d.put w.nextBlock w.padded w.padded).advance) := by
  obtain ⟨kind, expireAt, happ, hrec⟩ := @BatchOp.append_inner sh op seq more
  rw [happ, hrec]
  exact appendInner_drain h hg hroom hok hk hv (hrec ▸ hlen) (hrec ▸ hfit)

/-- The length of an operation's record: one that expires stores its expiry, and a delete no value. -/
theorem BatchOp.len_record (op : BatchOp) (seq : Nat) (more : Bool) :
    (op.record seq more).len =
      if op.kind = .putTtl ∧ op.expireAt ≠ 0 then recordLenTtl op.key.length op.val.length
      else recordLen op.key.length (if op.kind = .delete then 0 else op.val.length) := by
  rw [BatchOp.record, len_appendedRecord]
  by_cases hp : op.kind = .putTtl
  · by_cases he : op.expireAt = 0
    · simp [hp, he]
    · simp [hp, he]
  · simp [hp]

/-- A record that was appended with a 64-bit number is well formed. -/
theorem BatchOp.record_wf {op : BatchOp} {seq : Nat} {more : Bool} (hs : seq < 2 ^ 64)
    (hk : (op.record seq more).key.length ≤ U16_MAX) (hv : (op.record seq more).val.length ≤ U16_MAX) :
    (op.record seq more).WF := by
  refine ⟨hs, hk, hv, ?_, ?_⟩
  · have := op.expireLt
    simp only [BatchOp.record, appendedRecord]
    generalize (if op.kind = .putTtl ∧ op.expireAt = 0 then Op.put else op.kind) = k
    split <;> omega
  · intro hne
    exact if_neg hne

end Horton
