import Horton.Wal.Region

/-!
# The staging buffer

`StageOk size w rs`: the used part of the buffer encodes the records `rs`, and what `write_stage` does not zero is zero
already, so the block it writes is `blockOf size rs` (`StageOk.padded_eq`).  The `wp_` lemmas unfold the writer's
programs once and for all.
-/

namespace Horton

open BlockDev GroupLog

structure StageOk (size : Nat) (w : WalWriter) (rs : List Record) : Prop where
  length_stage : w.stage.length = size
  stageLen_eq : w.stageLen = lens rs
  fits : lens rs ≤ size
  dirty_le : w.dirtyTo ≤ size
  stage_eq : w.stage.take w.stageLen = encodeRecords rs
  zero_behind : Bytes.allZero (w.stage.drop (max w.stageLen w.dirtyTo)) = true

namespace WalWriter

/-- The writer when the staged block goes to the device. -/
def sealed (w : WalWriter) : WalWriter := { w with stage := w.padded, dirtyTo := w.stageLen }

/-- The writer after the block was written. -/
def wrote (w : WalWriter) : WalWriter := { w.sealed with nextBlock := w.nextBlock + 1, stageLen := 0 }

end WalWriter

variable {size : Nat} {w : WalWriter} {rs : List Record}

theorem StageOk.padded_eq (h : StageOk size w rs) : w.padded = blockOf size rs := by
  have hz := Bytes.allZero_iff.mp h.zero_behind
  rw [List.length_drop, h.length_stage] at hz
  have hd := h.dirty_le
  have hfit := h.fits
  have hlen := h.stageLen_eq
  unfold WalWriter.padded blockOf
  split
  · rename_i hlt
    rw [max_eq_right (by omega)] at hz
    rw [Bytes.splice, Bytes.length_zeros, show w.stageLen + (w.dirtyTo - w.stageLen) = w.dirtyTo by omega, hz, h.stage_eq,
      List.append_assoc]
    congr 1
    rw [Bytes.zeros, Bytes.zeros, Bytes.zeros, List.replicate_append_replicate]
    congr 1
    omega
  · rename_i hge
    rw [max_eq_left (by omega), hlen] at hz
    conv => lhs; rw [← List.take_append_drop (lens rs) w.stage, hz, ← hlen, h.stage_eq]
    rw [hlen]

theorem stageOk_new (sh : Shape) (walStart walEnd : Nat) : StageOk sh.BLOCK (WalWriter.new sh walStart walEnd) [] := by
  refine ⟨by simp [WalWriter.new], rfl, by simp, by simp [WalWriter.new], by simp [WalWriter.new], ?_⟩
  simp [WalWriter.new]

theorem StageOk.sealed (h : StageOk size w rs) : StageOk size w.sealed rs := by
  have hfit := h.fits
  refine ⟨by rw [WalWriter.sealed]; simp only [h.padded_eq]; exact length_blockOf hfit, h.stageLen_eq, h.fits, ?_, ?_, ?_⟩
  · simp only [WalWriter.sealed, h.stageLen_eq]; exact hfit
  · simp only [WalWriter.sealed, h.padded_eq, h.stageLen_eq, blockOf, ← length_encodeRecords]
    simp
  · simp only [WalWriter.sealed, h.padded_eq, h.stageLen_eq, blockOf, max_self, ← length_encodeRecords]
    simp

theorem StageOk.wrote (h : StageOk size w rs) : StageOk size w.wrote [] := by
  have hs := h.sealed
  refine ⟨hs.length_stage, rfl, by simp, hs.dirty_le, by simp [WalWriter.wrote], ?_⟩
  have := hs.zero_behind
  simpa [WalWriter.wrote, WalWriter.sealed] using this

/-- Staging one more record. -/
theorem StageOk.stageRecord (h : StageOk size w rs) {r : Record} (hr : lens rs + r.len ≤ size) :
    StageOk size (w.stageRecord r) (rs ++ [r]) := by
  have hlen := h.stageLen_eq
  have hsz := h.length_stage
  have htake : (w.stage.take w.stageLen).length = w.stageLen := by rw [List.length_take]; omega
  refine ⟨?_, ?_, by simpa using hr, h.dirty_le, ?_, ?_⟩
  · simp only [WalWriter.stageRecord, Bytes.splice, List.length_append, htake, List.length_drop, length_encodeRecord]
    omega
  · simp only [WalWriter.stageRecord, length_encodeRecord, hlen]; simp
  · simp only [WalWriter.stageRecord, Bytes.splice]
    rw [List.take_left' (by rw [List.length_append, htake]), h.stage_eq]
    simp
  · -- The bytes behind the new mark were behind the old one.
    simp only [WalWriter.stageRecord, Bytes.splice, length_encodeRecord]
    have hz := h.zero_behind
    rw [Bytes.allZero, List.all_eq_true] at hz ⊢
    intro b hb
    apply hz b
    rw [List.drop_append, List.drop_of_length_le (by
      rw [List.length_append, htake, length_encodeRecord]; omega), List.nil_append, List.drop_drop, List.length_append,
      htake, length_encodeRecord] at hb
    rw [show w.stageLen + r.len + (max (w.stageLen + r.len) w.dirtyTo - (w.stageLen + r.len)) =
      max w.stageLen w.dirtyTo + (max (w.stageLen + r.len) w.dirtyTo - max w.stageLen w.dirtyTo) by omega,
      ← List.drop_drop] at hb
    exact List.mem_of_mem_drop hb

/-- Dropping staged records from the end. -/
theorem StageOk.truncate {ss : List Record} (h : StageOk size w (rs ++ ss)) :
    StageOk size (w.truncateStage (lens rs)) rs := by
  have hlen := h.stageLen_eq
  have hfit := h.fits
  have hd := h.dirty_le
  rw [lens_append] at hlen hfit
  have hmax : (if w.stageLen > w.dirtyTo then w.stageLen else w.dirtyTo) = max w.stageLen w.dirtyTo := by
    rw [max_def]; split <;> split <;> omega
  refine ⟨h.length_stage, rfl, by omega, ?_, ?_, ?_⟩
  · simp only [WalWriter.truncateStage, hmax]; omega
  · simp only [WalWriter.truncateStage]
    have := congrArg (List.take (lens rs)) h.stage_eq
    rw [List.take_take, min_eq_left (by omega), encodeRecords_append, ← length_encodeRecords, List.take_left] at this
    rw [← length_encodeRecords]
    exact this
  · simp only [WalWriter.truncateStage, hmax]
    rw [show max (lens rs) (max w.stageLen w.dirtyTo) = max w.stageLen w.dirtyTo by omega]
    exact h.zero_behind

/-- Where the next block goes does not matter to the buffer. -/
theorem StageOk.resetTo (h : StageOk size w rs) (block : Nat) : StageOk size (w.resetTo block) rs :=
  ⟨h.length_stage, h.stageLen_eq, h.fits, h.dirty_le, h.stage_eq, h.zero_behind⟩

/-- After a recovery nothing in the buffer is known to be zero, and the mark says so. -/
theorem stageOk_recovered {stage : Bytes} (hlen : stage.length = size) (walStart walEnd nextBlock maxSeq : Nat) :
    StageOk size ⟨walStart, walEnd, stage, 0, size, nextBlock, maxSeq, false⟩ [] :=
  ⟨hlen, rfl, by simp, le_rfl, by simp, by simp [← hlen]⟩

/-! ### The writer's programs -/

theorem wp_writeStage (Q : Outcome Error Unit → WalWriter → Device → Prop) (w : WalWriter) (d : Device) :
    WalWriter.writeStage.wp Q w d ↔
      if w.nextBlock ≥ w.walEnd then Q (.err .walFull) w d
      else match d.fate with
        | .ok => Q (.ok ()) w.wrote (d.put w.nextBlock w.padded w.padded).advance
        | .fail k => Q (.err .device) w.sealed
            (d.put w.nextBlock w.padded (Bytes.tear k w.padded (d.blocks w.nextBlock))).advance
        | .cut k => Q .cut w.sealed
            (d.put w.nextBlock w.padded (Bytes.tear k w.padded (d.blocks w.nextBlock))).advance
        | .drop k => Q .dropped w.sealed
            (d.put w.nextBlock w.padded (Bytes.tear k w.padded (d.blocks w.nextBlock))).advance := by
  rw [WalWriter.writeStage, Prog.wp_bind, Prog.wp_get, Prog.andThen_ok]
  split
  · rw [Prog.wp_throw]
  · simp only [Prog.wp_bind, Prog.wp_set, Prog.wp_writeBlock, Prog.andThen_ok]
    cases d.fate <;> rfl

/-- The record that `append_inner` stages. -/
def appendedRecord (seq : Nat) (op : Op) (key val : Bytes) (expireAt : Nat) (more : Bool) : Record :=
  ⟨seq, op, more, key, val.take (if op = .delete then 0 else val.length), if op = .putTtl then expireAt else 0⟩

theorem wp_commit (Q : Outcome Error Unit → WalWriter → Device → Prop) (w : WalWriter) (d : Device) :
    WalWriter.commit.wp Q w d ↔
      if w.stageLen > 0 then WalWriter.writeStage.wp (Prog.andThen (fun _ => (Prog.flush .device).wp Q) Q) w d
      else (Prog.flush .device).wp Q w d := by
  rw [WalWriter.commit, Prog.wp_bind, Prog.wp_get]
  simp only [Prog.andThen_ok]
  split
  · rw [Prog.wp_bind]
  · rfl

end Horton
