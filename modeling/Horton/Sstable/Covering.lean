import Horton.Lib.Newest
import Horton.Sstable.RdelReader

/-!
# Probing for range tombstones

`covering_rdel_seq_in` walks the range-tombstone section of a table; where a section lies on the device, it finds the
newest tombstone around the key (`coveringRdelSeqIn_spec`).
-/

namespace Horton

open BlockDev

namespace Sstable

variable (sh : Shape)

/-- Keeps the greatest sequence number at or below `maxSeq` of the tombstones around `key`. -/
def keepCovering (key : Bytes) (maxSeq : Nat) (best : Option Nat) (e : RdelEntry) : Option Nat :=
  if (e.seq ≤ maxSeq ∧ e.start ≤ key ∧ key < e.stop) ∧ (∀ s ∈ best, e.seq > s) then some e.seq else best

/-- The loop over the tombstones of a block. -/
def coveringInBlock (block key : Bytes) (maxSeq id : Nat) : Nat → Nat → Option Nat → Except Error (Option Nat)
  | 0, _, best => .ok best
  | count + 1, off, best =>
    match rdelParseAt block off with
    | none => .error (.corruptBlock id)
    | some (e, next) => coveringInBlock block key maxSeq id count next (keepCovering key maxSeq best e)

/-- The greatest sequence number at or below `maxSeq` of a tombstone of the section around `key`. -/
def coveringRdelSeqIn (rdelFirst rdelBlocks : Nat) (key : Bytes) (maxSeq : Nat) : Reads Error (Option Nat) :=
  (List.range rdelBlocks).foldlM (fun best b =>
    if rdelFirst + b > U64_MAX then .fail (.corruptBlock rdelFirst)
    else do
      let scratch ← Reads.block (rdelFirst + b)
      let count ← Reads.ofExcept (rdelBlockCount sh scratch (rdelFirst + b))
      Reads.ofExcept (coveringInBlock scratch key maxSeq (rdelFirst + b) count 0 best)) none

/-- What a section of the tombstones `rdels` answers. -/
def covering (rdels : List RdelEntry) (key : Bytes) (maxSeq : Nat) : Option Nat :=
  newestStamp RdelEntry.seq (fun e => decide (e.seq ≤ maxSeq ∧ e.start ≤ key ∧ key < e.stop)) rdels

theorem covering_eq_foldl (rdels : List RdelEntry) (key : Bytes) (maxSeq : Nat) :
    covering rdels key maxSeq = rdels.foldl (keepCovering key maxSeq) none := by
  unfold covering newestStamp
  congr 1
  funext best e
  simp only [keepCovering, decide_eq_true_eq]

variable {sh} {b : List RdelEntry}

theorem coveringInBlock_eq (hb : RdelBlockOk sh b) (key : Bytes) (maxSeq id n : Nat) {i : Nat} (hi : i + n = b.length)
    (best : Option Nat) : coveringInBlock (withCrc (rdelBody sh b)) key maxSeq id n (rdelOffset b i) best =
      .ok ((b.drop i).foldl (keepCovering key maxSeq) best) := by
  induction n generalizing i best with
  | zero =>
    rw [List.drop_of_length_le (by omega)]
    rfl
  | succ n ih =>
    have hlt : i < b.length := by omega
    rw [coveringInBlock, hb.rdelParseAt_eq (List.getElem?_eq_getElem hlt), List.drop_eq_getElem_cons hlt, List.foldl_cons]
    exact ih (by omega) _

/-- A probe of a section answers like its tombstones. -/
theorem coveringRdelSeqIn_spec {blocks : Nat → Bytes} {base : Nat} {bins : List (List RdelEntry)}
    (h : RdelsOn sh blocks base bins) (key : Bytes) (maxSeq : Nat) :
    (coveringRdelSeqIn sh base bins.length key maxSeq).eval blocks = .ok (covering bins.flatten key maxSeq) := by
  have hids := h.ids
  unfold coveringRdelSeqIn
  rw [Reads.eval_foldlM (g := fun best i => (bins.getD i []).foldl (keepCovering key maxSeq) best)]
  · rw [covering_eq_foldl, List.foldl_flatten]
    have hrange : (List.range bins.length).map (fun i => bins.getD i []) = bins := by
      apply List.ext_getElem
      · simp
      · intro i h1 h2
        simp [List.getD_eq_getElem?_getD, h2]
    conv => rhs; rw [← hrange, List.foldl_map]
  · intro best i hi
    have hlt : i < bins.length := List.mem_range.mp hi
    have hget : bins[i]? = some bins[i] := List.getElem?_eq_getElem hlt
    have hok := h.block bins[i] (List.getElem_mem hlt)
    have hgetD : bins.getD i [] = bins[i] := by simp [List.getD_eq_getElem?_getD, hlt]
    have hloop := coveringInBlock_eq hok key maxSeq (base + i) bins[i].length (Nat.zero_add _) best
    rw [if_neg (by omega), Reads.eval_bind, Reads.eval_block]
    show Reads.eval blocks (_ >>= _) = _
    rw [Reads.eval_bind, Reads.eval_ofExcept, h.blocks_eq hget, hok.rdelBlockCount_eq]
    show Reads.eval blocks (Reads.ofExcept _) = _
    rw [Reads.eval_ofExcept, hgetD]
    exact hloop

theorem covering_eq_some {rdels : List RdelEntry} {key : Bytes} {maxSeq q : Nat} : covering rdels key maxSeq = some q ↔
    ∃ e, Newest RdelEntry.seq (fun e => e.seq ≤ maxSeq ∧ e.start ≤ key ∧ key < e.stop) rdels e ∧ e.seq = q := by
  unfold covering
  rw [newestStamp_eq_some]
  simp only [decide_eq_true_eq]

end Sstable

end Horton
