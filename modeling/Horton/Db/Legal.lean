import Horton.Db.Reached

/-!
# Legal mutations

A single mutation has to fit the arena of the memtable and one block of the log.  The assertions on the shape grant both for
puts that never expire and for deletes; `Mutation.Covered` is what they leave open for the others, and on an empty memtable it
decides whether the mutation is accepted (`Reached.accepts_iff`).
-/

namespace Horton

open BlockDev

namespace Mutation

/-- Keys, values and bounds within the limits of the shape. -/
def Legal (sh : Shape) : Mutation → Prop
  | put key val => key ≠ [] ∧ key.length ≤ sh.KEY_MAX ∧ val.length ≤ sh.VAL_MAX
  | putTtl key val _ => key ≠ [] ∧ key.length ≤ sh.KEY_MAX ∧ val.length ≤ sh.VAL_MAX
  | delete _ => True
  | rangeDelete start stop => start < stop ∧ start ≠ [] ∧ start.length ≤ sh.KEY_MAX ∧ stop.length ≤ sh.KEY_MAX

/-- What the assertions on the shape do not grant: room for the expiry behind a maximal value, and for two bounds where the
arena and a block are sized for a key and a value. -/
def Covered (sh : Shape) : Mutation → Prop
  | put _ _ => True
  | putTtl key val expireAt => expireAt = 0 ∨ recordLenTtl key.length val.length ≤ sh.BLOCK
  | delete key => key ≠ [] ∧ key.length ≤ sh.KEY_MAX
  | rangeDelete start stop =>
    recordLen start.length stop.length ≤ sh.BLOCK ∧ start.length + stop.length ≤ sh.ARENA

/-- The call that makes the mutation. -/
def call {sh : Shape} : Mutation → Call sh
  | put key val => .put key val
  | putTtl key val expireAt => .putWithTtl key val expireAt
  | delete key => .delete key
  | rangeDelete start stop => .deleteRange start stop

variable {sh : Shape} {t : MemTable}

theorem call_run {m : Mutation} (hm : m.Legal sh) {db : Db} (hopen : db.opened = true) (d : Device) :
    (m.call : Call sh).run db d = Db.commitMutation sh m db d := by
  cases m with
  | put key val => rfl
  | putTtl key val expireAt => rfl
  | delete key => rfl
  | rangeDelete start stop =>
    have hw : (Db.deleteRange sh start stop).wp (fun o db' d' => (o, db', d') =
        Db.commitMutation sh (.rangeDelete start stop) db d) db d := by
      rw [Db.deleteRange, Prog.wp_bind, Db.wp_ensureOpen, if_pos hopen, Prog.andThen_ok, Prog.wp_bind, Prog.wp_get,
        Prog.andThen_ok, if_neg (not_le.mpr hm.1)]
      rfl
    exact hw

/-- The length of the record of a mutation. -/
theorem len_record (m : Mutation) (seq : Nat) : (m.op.record seq false).len =
    match m with
    | put key val => recordLen key.length val.length
    | putTtl key val expireAt =>
      if expireAt = 0 then recordLen key.length val.length else recordLenTtl key.length val.length
    | delete key => recordLen key.length 0
    | rangeDelete start stop => recordLen start.length stop.length := by
  rw [BatchOp.len_record]
  cases m with
  | put key val => rfl
  | putTtl key val expireAt =>
    by_cases he : expireAt = 0
    · subst he
      rfl
    · have hne : expireAt.toNat ≠ 0 := fun h => he (UInt64.toNat_inj.mp h)
      simp [op, hne, he]
  | delete key => rfl
  | rangeDelete start stop => rfl

theorem plan_lengths {p : Plan} {key val : Bytes} {tombstone : Bool} (h : t.plan sh key val tombstone = .ok p) :
    key.length ≤ U16_MAX ∧ (tombstone = false → val.length ≤ U16_MAX) := by
  refine ⟨(MemTable.plan_ok h).2.2.trans sh.assertKey.2, ?_⟩
  rintro rfl
  exact (MemTable.plan_val_le h).trans sh.assertVal

/-- What passed the check can be written as a record. -/
theorem lengths_of_check {m : Mutation} (h : m.check sh t = .ok ()) :
    m.op.key.length ≤ U16_MAX ∧ m.op.val.length ≤ U16_MAX := by
  have hplan : ∀ {key val : Bytes} {tombstone : Bool}, t.checkInsert sh key val tombstone = .ok () →
      ∃ p, t.plan sh key val tombstone = .ok p := by
    intro key val tombstone h
    unfold MemTable.checkInsert at h
    cases hp : t.plan sh key val tombstone with
    | error e => rw [hp] at h; cases h
    | ok p => exact ⟨p, rfl⟩
  cases m with
  | put key val =>
    obtain ⟨p, hp⟩ := hplan h
    exact ⟨(plan_lengths hp).1, (plan_lengths hp).2 rfl⟩
  | putTtl key val expireAt =>
    obtain ⟨p, hp⟩ := hplan h
    exact ⟨(plan_lengths hp).1, (plan_lengths hp).2 rfl⟩
  | delete key =>
    obtain ⟨p, hp⟩ := hplan h
    exact ⟨(plan_lengths hp).1, Nat.zero_le _⟩
  | rangeDelete start stop =>
    have h' : t.checkInsertRangeDel sh start stop = .ok () := h
    unfold MemTable.checkInsertRangeDel at h'
    cases hp : t.planRangeDel sh start stop with
    | error e => rw [hp] at h'; cases h'
    | ok p =>
      obtain ⟨-, -, -, hstart, hstop⟩ := MemTable.planRangeDel_ok hp
      exact ⟨hstart.trans sh.assertKey.2, hstop.trans sh.assertKey.2⟩

section EmptyTable

variable (hlen : t.len = 0) (harena : t.arena = [])

include hlen harena

private theorem plan_empty {key val : Bytes} {tombstone : Bool} (hval : tombstone = false → val.length ≤ sh.VAL_MAX) :
    t.checkInsert sh key val tombstone = .ok () ↔ key ≠ [] ∧ key.length ≤ sh.KEY_MAX := by
  have hcap := sh.assertCap
  have hkey := sh.assertKey
  have hv := sh.assertVal
  have ha := sh.assertArena
  have hu : U16_MAX = 0xFFFF := rfl
  have hvlen : (if tombstone then 0 else val.length) ≤ sh.VAL_MAX := by
    cases tombstone with
    | true => exact Nat.zero_le _
    | false => exact hval rfl
  constructor
  · intro h
    unfold MemTable.checkInsert at h
    cases hp : t.plan sh key val tombstone with
    | error e => rw [hp] at h; cases h
    | ok p => exact (MemTable.plan_ok hp).2
  · rintro ⟨hne, hle⟩
    unfold MemTable.checkInsert MemTable.plan
    dsimp only
    rw [if_neg (by simpa using hne), if_neg (by omega), if_neg (by omega), if_neg (by omega), if_neg (by omega),
      MemTable.planAt_of_room (by omega) (by rw [MemTable.arenaLen, harena, List.length_nil]; omega)]
    rfl

private theorem planRangeDel_empty {start stop : Bytes} (hlt : start < stop) (hne : start ≠ [])
    (hstart : start.length ≤ sh.KEY_MAX) (hstop : stop.length ≤ sh.KEY_MAX) :
    t.checkInsertRangeDel sh start stop = .ok () ↔ start.length + stop.length ≤ sh.ARENA := by
  have hcap := sh.assertCap
  have hbound : ∀ b : Bytes, b ≠ [] → b.length ≤ sh.KEY_MAX → MemTable.checkBound sh b = .ok () := by
    intro b hb hle
    rw [MemTable.checkBound, if_neg (by simpa using hb), if_neg (by omega)]
  have hne' : stop ≠ [] := by
    rintro rfl
    exact absurd hlt (List.not_lt_nil _)
  constructor
  · intro h
    unfold MemTable.checkInsertRangeDel at h
    cases hp : t.planRangeDel sh start stop with
    | error e => rw [hp] at h; cases h
    | ok p =>
      have hroom := (MemTable.planRangeDel_ok hp).1.room
      rw [MemTable.arenaLen, harena, List.length_nil] at hroom
      omega
  · intro h
    unfold MemTable.checkInsertRangeDel MemTable.planRangeDel
    rw [hbound start hne hstart, hbound stop hne' hstop]
    show (do let _ ← (if start ≥ stop then _ else _ : Except Error Plan); pure ()) = Except.ok ()
    rw [if_neg (not_le.mpr hlt),
      MemTable.planAt_of_room (by omega) (by rw [MemTable.arenaLen, harena, List.length_nil]; omega)]
    rfl

/-- On an empty memtable a legal mutation is covered just if it passes its check and its record fits a block. -/
theorem covered_iff {m : Mutation} (hm : m.Legal sh) (seq : Nat) :
    m.Covered sh ↔ m.check sh t = .ok () ∧ (m.op.record seq false).len ≤ sh.BLOCK := by
  have hrec := sh.assertRec
  have hover : WAL_RECORD_OVERHEAD = 23 := rfl
  rw [len_record]
  cases m with
  | put key val =>
    obtain ⟨hne, hk, hv⟩ := hm
    have hlen' : recordLen key.length val.length ≤ sh.BLOCK := by
      rw [recordLen, hover]
      omega
    exact ⟨fun _ => ⟨(plan_empty hlen harena fun _ => hv).mpr ⟨hne, hk⟩, hlen'⟩, fun _ => trivial⟩
  | putTtl key val expireAt =>
    obtain ⟨hne, hk, hv⟩ := hm
    have hcheck : (putTtl key val expireAt).check sh t = .ok () := (plan_empty hlen harena fun _ => hv).mpr ⟨hne, hk⟩
    have hlen' : recordLen key.length val.length ≤ sh.BLOCK := by
      rw [recordLen, hover]
      omega
    dsimp only
    by_cases he : expireAt = 0
    · rw [if_pos he]
      exact ⟨fun _ => ⟨hcheck, hlen'⟩, fun _ => Or.inl he⟩
    · rw [if_neg he]
      exact ⟨fun h => ⟨hcheck, h.resolve_left he⟩, fun h => Or.inr h.2⟩
  | delete key =>
    have hlen' : key.length ≤ sh.KEY_MAX → recordLen key.length 0 ≤ sh.BLOCK := by
      intro hk
      rw [recordLen, hover]
      omega
    have hplan : (delete key).check sh t = .ok () ↔ _ :=
      @plan_empty sh t hlen harena key [] true (fun h => by cases h)
    rw [hplan]
    exact ⟨fun h => ⟨h, hlen' h.2⟩, fun h => h.1⟩
  | rangeDelete start stop =>
    obtain ⟨hlt, hne, hstart, hstop⟩ := hm
    have hplan : (rangeDelete start stop).check sh t = .ok () ↔ _ :=
      planRangeDel_empty hlen harena hlt hne hstart hstop
    rw [hplan]
    exact and_comm

end EmptyTable

end Mutation

/-- A shape with keys as long as the assertions allow in blocks of 512 bytes. -/
def Shape.tight : Shape := { Shape.small with
  KEY_MAX := 247
  ARENA := 512
  assertArenaFits := Shape.wide.assertArenaFits
  assertKey := by decide
  assertArena := by decide
  assertRec := by decide
  assertRdel := by decide
  assertManifest := by decide }

namespace Db

variable {sh : Shape} {cfg : Config} {db : Db} {d : Device} {rs : List Record}

/-- Blocks for the staged records and for one more. -/
def LogRoom (db : Db) : Prop := db.wal.nextBlock + (if db.wal.stageLen = 0 then 1 else 2) ≤ db.wal.walEnd

/-- The append of a mutation whose record does not fit behind the staged ones writes those first. -/
private theorem stageAppend_drain (hst : StageOk sh.BLOCK db.wal rs) (hg : db.wal.groupOpen = false)
    (hroom : db.wal.nextBlock < db.wal.walEnd) (hd : Healthy d) {op : BatchOp} (hk : op.key.length ≤ U16_MAX)
    (hv : op.val.length ≤ U16_MAX) {seq : Nat} {more : Bool} (hlen : (op.record seq more).len ≤ sh.BLOCK)
    (hfit : sh.BLOCK < lens rs + (op.record seq more).len) (mark : StageMark) :
    ∃ d', stageAppend mark (op.append sh seq more) db d =
      (.ok (), { db with wal := db.wal.wrote.stageRecord (op.record seq more) }, d') ∧ Healthy d' := by
  refine ⟨(d.put db.wal.nextBlock db.wal.padded db.wal.padded).advance, ?_, hd.advance⟩
  have hw : (stageAppend mark (op.append sh seq more)).wp (fun o db' d' => (o, db', d') =
      (.ok (), { db with wal := db.wal.wrote.stageRecord (op.record seq more) },
        (d.put db.wal.nextBlock db.wal.padded db.wal.padded).advance)) db d := by
    rw [stageAppend, Prog.wp_bind, Prog.wp_attempt, onWal, Prog.wp_zoom, Prog.wp,
      BatchOp.append_drain hst hg hroom hd.fate hk hv hlen hfit]
    rfl
  exact hw

/-- On a device without errors and a log with room the record of a mutation is staged, alone or behind others. -/
private theorem stageAppend_room (hst : StageOk sh.BLOCK db.wal rs) (hg : db.wal.groupOpen = false) (hroom : db.LogRoom)
    (hd : Healthy d) {op : BatchOp} (hk : op.key.length ≤ U16_MAX) (hv : op.val.length ≤ U16_MAX) {seq : Nat} {more : Bool}
    (hlen : (op.record seq more).len ≤ sh.BLOCK) (mark : StageMark) :
    ∃ w d' ss, stageAppend mark (op.append sh seq more) db d = (.ok (), { db with wal := w }, d') ∧ Healthy d' ∧
      StageOk sh.BLOCK w (ss ++ [op.record seq more]) ∧ w.nextBlock < w.walEnd := by
  have hroom' := hroom
  unfold LogRoom at hroom'
  by_cases hfit : lens rs + (op.record seq more).len ≤ sh.BLOCK
  · refine ⟨_, d, rs, stageAppend_ok hst hk hv hfit mark, hd, hst.stageRecord hfit, ?_⟩
    show db.wal.nextBlock < db.wal.walEnd
    split at hroom' <;> omega
  · have hpos : db.wal.stageLen ≠ 0 := by
      rw [hst.stageLen_eq]
      omega
    rw [if_neg hpos] at hroom'
    obtain ⟨d', hrun, hd'⟩ := stageAppend_drain hst hg (by omega) hd hk hv hlen (not_le.mp hfit) mark
    refine ⟨_, d', [], hrun, hd', hst.wrote.stageRecord (by simpa using hlen), ?_⟩
    show db.wal.nextBlock + 1 < db.wal.walEnd
    omega

/-- A mutation that passes its check, fits a block and gets a number is committed and inserted. -/
theorem commitMutation_ok (hopen : db.opened = true) (hst : StageOk sh.BLOCK db.wal rs) (hg : db.wal.groupOpen = false)
    (hroom : db.LogRoom) (hd : Healthy d) {m : Mutation} (hcheck : m.check sh db.table = .ok ())
    (hk : m.op.key.length ≤ U16_MAX) (hv : m.op.val.length ≤ U16_MAX)
    (hlen : (m.op.record (db.nextSeq + 1) false).len ≤ sh.BLOCK) (hseq : db.nextSeq < U64_MAX) :
    ∃ db' d', commitMutation sh m db d = (.ok (db.nextSeq + 1), db', d') := by
  obtain ⟨w, d₁, ss, happ, hd₁, hst₁, hroom₁⟩ := stageAppend_room hst hg hroom hd hk hv hlen db.stageMark
  obtain ⟨d₂, hcommit, -⟩ := @commitStaged_ok sh { db with wal := w } d₁ _ hst₁ (by simp) hroom₁ hd₁ db.stageMark 1
  obtain ⟨t, ht⟩ := Mutation.insert_of_check hcheck (db.nextSeq + 1)
  have hw : (commitMutation sh m).wp (fun o _ _ => o = .ok (db.nextSeq + 1)) db d := by
    rw [commitMutation, Prog.wp_bind, wp_ensureOpen, if_pos hopen, Prog.andThen_ok, Prog.wp_bind, Prog.wp_get,
      Prog.andThen_ok, Prog.wp_bind, hcheck, Prog.wp_ofExcept_ok, Prog.andThen_ok, if_neg (by omega)]
    dsimp only
    rw [Prog.wp_bind, m.append_eq, Prog.wp, happ, Prog.andThen_ok, Prog.wp_bind, Prog.wp, hcommit, Prog.andThen_ok,
      Prog.wp_bind, Prog.wp_modify, Prog.andThen_ok, Prog.wp_bind, ht, Prog.wp_ofExcept_ok, Prog.andThen_ok, Prog.wp_bind,
      Prog.wp_modify, Prog.andThen_ok, Prog.wp_pure]
  exact ⟨_, _, Prod.ext hw (Prod.ext rfl rfl)⟩

/-- A mutation that returns `Ok` passed its check, got a number and fits a block. -/
theorem commitMutation_only (hopen : db.opened = true) (m : Mutation) :
    (commitMutation sh m).wp (fun o _ _ => ∀ seq, o = .ok seq → m.check sh db.table = .ok () ∧ db.nextSeq < U64_MAX ∧
      (m.op.record (db.nextSeq + 1) false).len ≤ sh.BLOCK) db d := by
  rw [commitMutation, Prog.wp_bind, wp_ensureOpen, if_pos hopen, Prog.andThen_ok, Prog.wp_bind, Prog.wp_get,
    Prog.andThen_ok, Prog.wp_bind]
  cases hcheck : m.check sh db.table with
  | error e =>
    intro seq hok
    cases hok
  | ok u =>
    rw [Prog.wp_ofExcept_ok, Prog.andThen_ok]
    split
    · intro seq hok
      cases hok
    rename_i hseq
    by_cases hlen : (m.op.record (db.nextSeq + 1) false).len ≤ sh.BLOCK
    · exact Prog.wp_of_run fun _ _ _ _ _ _ => ⟨rfl, by omega, hlen⟩
    · dsimp only
      rw [Prog.wp_bind, stageAppend, Prog.wp_bind, Prog.wp_attempt, onWal, Prog.wp_zoom, m.append_eq]
      refine Prog.wp_mono (BatchOp.append_long (not_le.mp hlen)) ?_
      rintro o w' d' ⟨⟨e, rfl⟩, rfl, rfl⟩
      dsimp only [Prog.andThen_ok]
      exact wp_failCommit rfl 0 e fun seq hok => by cases hok

/-- On an open handle with an empty memtable, a log with room and a device without errors, a legal mutation is accepted just
if it is covered and a sequence number is left. -/
theorem Reached.accepts_iff (hb : (cfg.resolveLayout sh).Bounded) (h : Reached sh cfg db) (hopen : db.opened = true)
    (hempty : db.table.len = 0) (hroom : db.LogRoom) (hd : Healthy d) {m : Mutation} (hm : m.Legal sh) :
    (∃ seq db' d', (m.call : Call sh).run db d = (.ok seq, db', d')) ↔ db.nextSeq < U64_MAX ∧ m.Covered sh := by
  have hu := (h.held hb).usable hopen
  obtain ⟨rs, hst⟩ := hu.stage
  rw [m.call_run hm hopen, m.covered_iff hempty (hu.arena hempty) hm (db.nextSeq + 1)]
  constructor
  · rintro ⟨seq, db', d', hrun⟩
    obtain ⟨hcheck, hseq, hlen⟩ := Prog.wp_run (commitMutation_only hopen m) hrun seq rfl
    exact ⟨hseq, hcheck, hlen⟩
  · rintro ⟨hseq, hcheck, hlen⟩
    obtain ⟨hk, hv⟩ := m.lengths_of_check hcheck
    obtain ⟨db', d', hrun⟩ := commitMutation_ok hopen hst hu.shut hroom hd hcheck hk hv hlen hseq
    exact ⟨_, db', d', hrun⟩

/-- A range delete between two short keys. -/
theorem Reached.accepts_iff_range : ∃ seq db' d',
    ((Mutation.rangeDelete [1] [2]).call : Call .roomy).run (openedOn .roomy 60) Sys.zeroed = (.ok seq, db', d') := by
  have hreached : Reached .roomy (.wholeDevice 60) (openedOn .roomy 60) :=
    reached_openedOn rfl (by decide +kernel) (by decide +kernel)
  have hopen : (openedOn .roomy 60).opened = true := by decide +kernel
  have hempty : (openedOn .roomy 60).table.len = 0 := by decide +kernel
  have hroom : (openedOn .roomy 60).LogRoom := by
    unfold LogRoom
    decide +kernel
  have hseq : (openedOn .roomy 60).nextSeq < U64_MAX := by decide +kernel
  have hd : Healthy Sys.zeroed := rfl
  refine (Reached.accepts_iff Sys.bounded_wholeDevice hreached hopen hempty hroom hd ?_).mpr ⟨hseq, ?_⟩
  · exact ⟨by decide, by decide, by decide, by decide⟩
  · exact ⟨by decide, by decide⟩

/-- A legal range delete between two keys of maximal length does not fit a block of the log. -/
theorem Reached.refuses_long_range :
    Reached .tight (.wholeDevice 80) (openedOn .tight 80) ∧ (openedOn .tight 80).opened = true ∧
      (openedOn .tight 80).table.len = 0 ∧ (openedOn .tight 80).LogRoom ∧ Healthy Sys.zeroed ∧
      (Mutation.rangeDelete (List.replicate 247 1) (List.replicate 247 2)).Legal .tight ∧
      (((Mutation.rangeDelete (List.replicate 247 1) (List.replicate 247 2)).call : Call .tight).run
        (openedOn .tight 80) Sys.zeroed).1 = .err (.batchTooLarge 517 512) := by
  have hreached : Reached .tight (.wholeDevice 80) (openedOn .tight 80) :=
    reached_openedOn rfl (by decide +kernel) (by decide +kernel)
  refine ⟨hreached, by decide +kernel, by decide +kernel, ?_, rfl, ⟨by decide +kernel, by decide +kernel, by decide +kernel, by decide +kernel⟩, ?_⟩
  · unfold LogRoom
    decide +kernel
  · decide +kernel

end Db

end Horton
