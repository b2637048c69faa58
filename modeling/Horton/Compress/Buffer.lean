import Horton.Basic
import Horton.Compress

/-!
# The decoder on its buffers

`decompress` of `compress.rs` at the level of indices: a position `sp` in the stream, a position `dp` in the output buffer,
and every index or slice of the source checked against the buffer it goes into.  `decompress_eq`: no check ever fails, the
loops end, and what is left in the buffer is what the decoder on lists returns.
-/

namespace Horton

namespace Compress

/-- How a run on the buffers ends early: an `Err` of the decoder, an access outside a buffer, or a loop that was cut off. -/
inductive Stop
  | err (e : DecompressError)
  | outside
  | unfinished
  deriving DecidableEq, Repr

/-- `buf[i]`. -/
def at_ (buf : Bytes) (i : Nat) : Except Stop UInt8 := (buf[i]?).elim (.error .outside) .ok

/-- `dst[dp..dp + n].copy_from_slice(&src[sp..sp + n])`. -/
def copyFromSlice (dst : Bytes) (dp : Nat) (src : Bytes) (sp n : Nat) : Except Stop Bytes :=
  if dp + n > dst.length ∨ sp + n > src.length then .error .outside
  else .ok (Bytes.splice dst dp ((src.drop sp).take n))

/-- `dst[dp] = b`. -/
def store (dst : Bytes) (dp : Nat) (b : UInt8) : Except Stop Bytes :=
  if dp < dst.length then .ok (dst.set dp b) else .error .outside

/-- The `take!` macro: one stream byte and the position after it. -/
def takeByte (src : Bytes) (sp : Nat) : Except Stop (UInt8 × Nat) :=
  if sp ≥ src.length then .error (.err .truncated) else (at_ src sp).map fun b => (b, sp + 1)

/-- The loop of `read_ext`; the sum saturates. -/
def readExtAt (src : Bytes) : Nat → Nat → Nat → Except Stop (Nat × Nat)
  | 0, _, _ => .error .unfinished
  | fuel + 1, sp, total => do
    let (b, sp) ← takeByte src sp
    let total := min (total + b.toNat) U64_MAX
    if b ≠ 0xFF then return (total, sp)
    if total > 2 ^ 24 then return (total, sp)
    readExtAt src fuel sp total

/-- A nibble, with its extension when it is full. -/
def readLenAt (nibble : Nat) (src : Bytes) (sp : Nat) : Except Stop (Nat × Nat) :=
  if nibble = 15 then do
    let (n, sp) ← readExtAt src (src.length + 1) sp 0
    return (15 + n, sp)
  else .ok (nibble, sp)

/-- The overlapping copy: `n` bytes from `mp` to `dp`, one at a time. -/
def copyEach : Nat → Nat → Nat → Bytes → Except Stop Bytes
  | 0, _, _, dst => .ok dst
  | n + 1, mp, dp, dst => do
    let b ← at_ dst mp
    let dst ← store dst dp b
    copyEach n (mp + 1) (dp + 1) dst

/-- The copy of a match; disjoint ranges go in one `copy_within`. -/
def copyMatchAt (dst : Bytes) (dp offset matchLen : Nat) : Except Stop Bytes :=
  let mp := dp - offset
  if offset ≥ matchLen then copyFromSlice dst dp dst mp matchLen else copyEach matchLen mp dp dst

/-- The loop of `decompress` from the positions `sp` and `dp`. -/
def decompressLoopAt (src : Bytes) : Nat → Nat → Nat → Bytes → Except Stop Bytes
  | 0, _, _, _ => .error .unfinished
  | fuel + 1, sp, dp, dst =>
    if dp < dst.length then do
      let (tag, sp) ← takeByte src sp
      let (litLen, sp) ← readLenAt (tag.toNat / 16) src sp
      if litLen > dst.length - dp then .error (.err .invalid)
      else if sp + litLen > src.length then .error (.err .truncated)
      else do
        let dst ← copyFromSlice dst dp src sp litLen
        let sp := sp + litLen
        let dp := dp + litLen
        if dp = dst.length then return dst
        else do
          let (n, sp) ← readLenAt (tag.toNat % 16) src sp
          let matchLen := n + MIN_MATCH
          if sp + 2 > src.length then .error (.err .truncated)
          else do
            let lo ← at_ src sp
            let hi ← at_ src (sp + 1)
            let offset := lo.toNat ||| hi.toNat <<< 8
            if offset = 0 ∨ offset > dp then .error (.err .invalid)
            else if matchLen > dst.length - dp then .error (.err .invalid)
            else do
              let dst ← copyMatchAt dst dp offset matchLen
              decompressLoopAt src fuel (sp + 2) (dp + matchLen) dst
    else .ok dst

/-- `decompress` into the caller's buffer, which is returned. -/
def decompressAt (src dst : Bytes) : Except Stop Bytes := decompressLoopAt src (src.length + 1) 0 0 dst

/-! ### One access after the other -/

theorem at_eq {buf : Bytes} {i : Nat} {b : UInt8} (h : buf[i]? = some b) : at_ buf i = .ok b := by rw [at_, h]; rfl

theorem takeByte_nil {src : Bytes} {sp : Nat} (h : src.drop sp = []) : takeByte src sp = .error (.err .truncated) := by
  rw [takeByte, if_pos (List.drop_eq_nil_iff.mp h)]

theorem takeByte_cons {src rest : Bytes} {sp : Nat} {b : UInt8} (h : src.drop sp = b :: rest) :
    takeByte src sp = .ok (b, sp + 1) ∧ src.drop (sp + 1) = rest ∧ sp + 1 ≤ src.length := by
  have hlen : (src.drop sp).length = rest.length + 1 := by rw [h]; rfl
  have hget : src[sp]? = some b := by
    have := congrArg (·[0]?) h
    simpa using this
  rw [List.length_drop] at hlen
  refine ⟨?_, ?_, by omega⟩
  · rw [takeByte, if_neg (by omega), at_eq hget]
    rfl
  · rw [← List.drop_drop, h]
    rfl

theorem copyFromSlice_eq (dst src : Bytes) {dp sp n : Nat} (hd : dp + n ≤ dst.length) (hs : sp + n ≤ src.length) :
    ∃ dst', copyFromSlice dst dp src sp n = .ok dst' ∧ dst'.length = dst.length ∧
      dst'.take (dp + n) = dst.take dp ++ (src.drop sp).take n := by
  have hx : ((src.drop sp).take n).length = n := by simp; omega
  refine ⟨_, if_neg (by omega), ?_, ?_⟩
  · simp only [Bytes.splice, List.length_append, List.length_take, List.length_drop]
    omega
  · rw [Bytes.splice, List.take_left']
    simp
    omega

theorem copyEach_eq {n mp dp offset : Nat} {dst : Bytes} (hmp : mp = dp - offset) (hoff : 0 < offset) (hdp : offset ≤ dp)
    (hd : dp + n ≤ dst.length) : ∃ dst', copyEach n mp dp dst = .ok dst' ∧ dst'.length = dst.length ∧
      dst'.take (dp + n) = copyBytes offset n (dst.take dp) := by
  induction n generalizing mp dp dst with
  | zero => exact ⟨dst, rfl, rfl, rfl⟩
  | succ n ih =>
    have hget : dst[mp]? = some (dst.getD mp 0) := by
      rw [List.getD_eq_getElem?_getD, List.getElem?_eq_getElem (by omega)]
      rfl
    obtain ⟨dst', hrun, hlen, htake⟩ := @ih (mp + 1) (dp + 1) (dst.set dp (dst.getD mp 0)) (by omega)
      (by omega) (by rw [List.length_set]; omega)
    refine ⟨dst', ?_, ?_, ?_⟩
    · rw [copyEach, at_eq hget]
      simp only [bind, Except.bind, store]
      rw [if_pos (by omega)]
      exact hrun
    · rw [hlen, List.length_set]
    · have hlast : (dst.set dp (dst.getD mp 0)).take (dp + 1) = dst.take dp ++ [dst.getD mp 0] := by
        rw [List.take_add_one, List.take_set_of_le (le_refl _), List.getElem?_set_self (by omega)]
        rfl
      have hold : (dst.take dp).getD ((dst.take dp).length - offset) 0 = dst.getD mp 0 := by
        rw [List.length_take, Nat.min_eq_left (by omega), ← hmp, List.getD_eq_getElem?_getD, List.getD_eq_getElem?_getD,
          List.getElem?_take_of_lt (by omega)]
      rw [show dp + (n + 1) = dp + 1 + n by omega, htake, hlast, copyBytes, hold]

/-! ### Both decoders agree -/

/-- The two decoders read the same length from `sp` on, or stop with the same error. -/
inductive Agree (src : Bytes) (sp : Nat) : Except DecompressError (Nat × Bytes) → Except Stop (Nat × Nat) → Prop
  | ok (n sp' : Nat) (hsp : sp ≤ sp') (hle : sp' ≤ src.length) : Agree src sp (.ok (n, src.drop sp')) (.ok (n, sp'))
  | error (e : DecompressError) : Agree src sp (.error e) (.error (.err e))

theorem readExtAt_agree {src : Bytes} {sp : Nat} (fuel total : Nat) (hsp : sp ≤ src.length) (hfuel : src.length < sp + fuel)
    (htotal : total ≤ 2 ^ 24) :
    Agree src sp (readExt (src.drop sp) total) (readExtAt src fuel sp total) := by
  induction fuel generalizing sp total with
  | zero => omega
  | succ fuel ih =>
    cases hsrc : src.drop sp with
    | nil =>
      rw [readExtAt, takeByte_nil hsrc]
      exact .error .truncated
    | cons b rest =>
      obtain ⟨htake, hrest, hle⟩ := takeByte_cons hsrc
      have hb : b.toNat < 256 := b.toNat_lt
      have hsat : min (total + b.toNat) U64_MAX = total + b.toNat := by
        rw [U64_MAX]
        omega
      have hok : Agree src sp (.ok (total + b.toNat, rest)) (.ok (total + b.toNat, sp + 1)) := by
        rw [← hrest]
        exact .ok _ _ (by omega) hle
      rw [readExtAt, readExt, htake]
      simp only [bind, Except.bind, hsat]
      split_ifs with hff hlong
      · exact hok
      · exact hok
      · have hnext := @ih (sp + 1) (total + b.toNat) hle (by omega) (by omega)
        rw [hrest] at hnext
        generalize readExt rest (total + b.toNat) = r at hnext ⊢
        generalize readExtAt src fuel (sp + 1) (total + b.toNat) = r' at hnext ⊢
        cases hnext with
        | ok n sp' hsp hle => exact .ok n sp' (by omega) hle
        | error e => exact .error e

theorem readLenAt_agree {src : Bytes} (nibble sp : Nat) (hsp : sp ≤ src.length) :
    Agree src sp (readLen nibble (src.drop sp)) (readLenAt nibble src sp) := by
  unfold readLen readLenAt
  split_ifs with hfull
  · have h := readExtAt_agree (src.length + 1) 0 hsp (by omega) (by omega)
    generalize readExt (src.drop sp) 0 = r at h ⊢
    generalize readExtAt src (src.length + 1) sp 0 = r' at h ⊢
    cases h with
    | ok n sp' hsp hle => exact .ok (15 + n) sp' hsp hle
    | error e => exact .error e
  · exact .ok nibble sp le_rfl hsp

/-- What follows a length agrees when it does so for every position the length can end at. -/
theorem Agree.bind {src : Bytes} {sp : Nat} {r : Except DecompressError (Nat × Bytes)} {r' : Except Stop (Nat × Nat)}
    (h : Agree src sp r r') {k : Nat × Bytes → Except DecompressError Bytes} {k' : Nat × Nat → Except Stop Bytes}
    (hk : ∀ n sp', sp ≤ sp' → sp' ≤ src.length → k' (n, sp') = (k (n, src.drop sp')).mapError .err) :
    (r' >>= k') = (r >>= k).mapError .err := by
  cases h with
  | ok n sp' hsp hle => exact hk n sp' hsp hle
  | error e => rfl

theorem lowHigh (lo hi : UInt8) : lo.toNat ||| hi.toNat <<< 8 = lo.toNat + 256 * hi.toNat := by
  have hlo : lo.toNat < 2 ^ 8 := lo.toNat_lt
  rw [Nat.or_comm, ← Nat.shiftLeft_add_eq_or_of_lt hlo, Nat.shiftLeft_eq]
  omega

theorem copyMatchAt_eq {dst : Bytes} {dp offset len : Nat} (hoff : 0 < offset) (hdp : offset ≤ dp)
    (hd : dp + len ≤ dst.length) : ∃ dst', copyMatchAt dst dp offset len = .ok dst' ∧ dst'.length = dst.length ∧
      dst'.take (dp + len) = copyMatch (dst.take dp) offset len := by
  unfold copyMatchAt copyMatch
  dsimp only
  split_ifs with hfar
  · obtain ⟨dst', hcopy, hlen, htake⟩ := @copyFromSlice_eq dst dst dp (dp - offset) len hd (by omega)
    refine ⟨dst', hcopy, hlen, ?_⟩
    rw [htake, List.length_take, Nat.min_eq_left (by omega), List.drop_take, List.take_take, Nat.min_eq_left (by omega)]
  · exact copyEach_eq rfl hoff hdp hd

theorem decompressLoopAt_eq {src : Bytes} {fuel sp dp : Nat} {dst : Bytes} (hsp : sp ≤ src.length)
    (hfuel : src.length < sp + fuel) (hdp : dp ≤ dst.length) :
    decompressLoopAt src fuel sp dp dst =
      (decompressLoop dst.length fuel (src.drop sp) (dst.take dp)).mapError .err := by
  induction fuel generalizing sp dp dst with
  | zero => omega
  | succ fuel ih =>
    unfold decompressLoopAt decompressLoop
    rw [List.length_take, Nat.min_eq_left hdp]
    by_cases hroom : dp < dst.length
    swap
    · rw [if_neg hroom, if_neg hroom, List.take_of_length_le (by omega)]
      rfl
    rw [if_pos hroom, if_pos hroom]
    cases hsrc : src.drop sp with
    | nil =>
      rw [takeByte_nil hsrc]
      rfl
    | cons tag rest =>
      obtain ⟨htake, hrest, hle⟩ := takeByte_cons hsrc
      rw [htake, ← hrest]
      refine (readLenAt_agree (tag.toNat / 16) _ hle).bind ?_
      intro litLen sp₁ hsp₁ hle₁
      dsimp only
      by_cases hlit : litLen > dst.length - dp
      · rw [if_pos hlit, if_pos hlit]
        rfl
      rw [if_neg hlit, if_neg hlit, List.length_drop]
      by_cases hmore : sp₁ + litLen > src.length
      · rw [if_pos hmore, if_pos (by omega)]
        rfl
      rw [if_neg hmore, if_neg (by omega)]
      obtain ⟨dst₁, hcopy, hlen₁, htake₁⟩ := @copyFromSlice_eq dst src dp sp₁ litLen (by omega) (by omega)
      rw [hcopy, ← htake₁, ← hlen₁]
      simp only [bind, Except.bind]
      rw [List.length_take, Nat.min_eq_left (by omega), List.drop_drop]
      by_cases hfull : dp + litLen = dst₁.length
      · rw [if_pos hfull, if_pos hfull, hfull, List.take_length]
        rfl
      rw [if_neg hfull, if_neg hfull]
      refine (readLenAt_agree (tag.toNat % 16) (sp₁ + litLen) (by omega)).bind ?_
      intro n sp₂ hsp₂ hle₂
      dsimp only
      match hpair : src.drop sp₂ with
      | [] =>
        have : (src.drop sp₂).length = 0 := by rw [hpair]; rfl
        rw [List.length_drop] at this
        rw [if_pos (by omega)]
        rfl
      | [_] =>
        have : (src.drop sp₂).length = 1 := by rw [hpair]; rfl
        rw [List.length_drop] at this
        rw [if_pos (by omega)]
        rfl
      | lo :: hi :: rest =>
        have hlen₂ : (src.drop sp₂).length = rest.length + 2 := by rw [hpair]; rfl
        have hlo : src[sp₂]? = some lo := by rw [← Nat.add_zero sp₂, ← List.getElem?_drop, hpair]; rfl
        have hhi : src[sp₂ + 1]? = some hi := by rw [← List.getElem?_drop, hpair]; rfl
        have hrest₂ : rest = src.drop (sp₂ + 2) := by rw [← List.drop_drop, hpair]; rfl
        rw [List.length_drop] at hlen₂
        rw [if_neg (by omega), at_eq hlo, at_eq hhi]
        dsimp only
        rw [lowHigh]
        by_cases hoff : lo.toNat + 256 * hi.toNat = 0 ∨ lo.toNat + 256 * hi.toNat > dp + litLen
        · rw [if_pos hoff, if_pos hoff]
          rfl
        rw [if_neg hoff, if_neg hoff]
        by_cases hlong : n + MIN_MATCH > dst₁.length - (dp + litLen)
        · rw [if_pos hlong, if_pos hlong]
          rfl
        rw [if_neg hlong, if_neg hlong]
        obtain ⟨dst₂, hmatch, hlen₃, htake₂⟩ := @copyMatchAt_eq dst₁ (dp + litLen)
          (lo.toNat + 256 * hi.toNat) (n + MIN_MATCH) (by omega) (by omega) (by omega)
        rw [hmatch, ← htake₂, ← hlen₃, hrest₂]
        exact ih (by omega) (by omega) (by omega)

end Compress

/-- The decoder on its buffers is the decoder on lists: it ends, and never leaves a buffer. -/
theorem decompressAt_eq (src dst : Bytes) :
    Compress.decompressAt src dst = (decompress src dst.length).mapError .err := by
  have h := @Compress.decompressLoopAt_eq src (src.length + 1) 0 0 dst
    (Nat.zero_le _) (by omega) (Nat.zero_le _)
  rwa [List.drop_zero, List.take_zero] at h

end Horton
