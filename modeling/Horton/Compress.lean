import Horton.Lib.Bytes

/-!
# Block compression

The LZ77 codec of `compress.rs`.  A stream is a sequence of tokens: a tag byte with two length nibbles, the extension of
the literal length, the literals, the extension of the match length and the distance of the match.  The encoder resets
its scratch on every call, so it is a function of the block; its output buffer holds `BLOCK` bytes.

`decompress_compress`: what the encoder keeps, the decoder turns back into the block.  The argument follows the encoder:
the tokens emitted so far decode to the input up to the pending literals (`Decodes`).
-/

namespace Horton

def COMPRESS_MIN_SAVING : Nat := 128

def MIN_MATCH : Nat := 4

def HASH_BITS : Nat := 10

def HASH_SIZE : Nat := 2 ^ HASH_BITS

def MAX_MATCH : Nat := 2 ^ 16

inductive DecompressError
  | truncated
  | invalid
  deriving DecidableEq, Repr

namespace Compress

/-! ### The hash table -/

/-- Hashes the four bytes at `p` into a bucket. -/
def hash (src : Bytes) (p : Nat) : Nat :=
  (Bytes.leNat ((src.drop p).take 4) * 0x9E3779B9 % 2 ^ 32) >>> (32 - HASH_BITS)

/-- Bucket `h` now holds position `p`, as a `u32`. -/
def insertAt (head : Nat → Nat) (h p : Nat) : Nat → Nat := Function.update head h (p % 2 ^ 32)

def insert (head : Nat → Nat) (src : Bytes) (p : Nat) : Nat → Nat :=
  if p + MIN_MATCH ≤ src.length then insertAt head (hash src p) p else head

/-- Indexes the positions from `p` on whose four bytes end by `stop`. -/
def insertFrom (src : Bytes) (stop : Nat) : Nat → Nat → (Nat → Nat) → Nat → Nat
  | 0, _, head => head
  | fuel + 1, p, head => if p + MIN_MATCH ≤ stop then insertFrom src stop fuel (p + 1) (insert head src p) else head

/-- How many of the first `cap` bytes agree. -/
def matchLen : Nat → Bytes → Bytes → Nat
  | cap + 1, a :: as, b :: bs => if a = b then matchLen cap as bs + 1 else 0
  | _, _, _ => 0

/-- The candidate for a match at `ip`, its length, and the bucket of `ip` (`HASH_SIZE` too close to the end). -/
def findMatch (head : Nat → Nat) (src : Bytes) (ip body : Nat) : Nat × Nat × Nat :=
  if ip + MIN_MATCH > body then (0, 0, HASH_SIZE)
  else
    let h := hash src ip
    let cand := head h
    if cand = 0xFFFFFFFF then (0, 0, h)
    else if cand ≥ ip ∨ ip - cand > 32768 then (0, 0, h)
    else (cand, matchLen (min (body - ip) MAX_MATCH) (src.drop cand) (src.drop ip), h)

/-! ### Emitting -/

/-- Appends to the staging buffer of `size` bytes; `none` when it is full. -/
def emit (size : Nat) (out : Bytes) (b : UInt8) : Option Bytes := if out.length ≥ size then none else some (out ++ [b])

def emitToken (size : Nat) (out : Bytes) (litLen tokMl : Nat) : Option Bytes :=
  emit size out (UInt8.ofNat (min litLen 15 * 16 + min tokMl 15))

/-- The extension bytes for a rest of `rem`: a byte of 255 for every 255, then what is left. -/
def emitExtFrom (size : Nat) : Nat → Bytes → Nat → Option Bytes
  | 0, _, _ => none
  | fuel + 1, out, rem =>
    if rem ≥ 255 then do
      let out ← emit size out 0xFF
      emitExtFrom size fuel out (rem - 255)
    else emit size out (UInt8.ofNat rem)

/-- Nothing below 15, where the nibble says it all. -/
def emitExt (size : Nat) (out : Bytes) (len : Nat) : Option Bytes :=
  if len < 15 then some out else emitExtFrom size len out (len - 15)

def emitLiterals (size : Nat) (out src : Bytes) (lo hi : Nat) : Option Bytes :=
  if out.length + (hi - lo) > size then none else some (out ++ (src.drop lo).take (hi - lo))

def emitU16 (size : Nat) (out : Bytes) (v : Nat) : Option Bytes :=
  if v = 0 ∨ v > 0xFFFF then none
  else do
    let out ← emit size out (UInt8.ofNat (v % 256))
    emit size out (UInt8.ofNat (v / 256 % 256))

/-- One token with a match. -/
def emitMatch (size : Nat) (out src : Bytes) (anchor ip mpos mlen : Nat) : Option Bytes := do
  let out ← emitToken size out (ip - anchor) (min (mlen - MIN_MATCH) 15)
  let out ← emitExt size out (ip - anchor)
  let out ← emitLiterals size out src anchor ip
  let out ← emitExt size out (mlen - MIN_MATCH)
  emitU16 size out (ip - mpos)

/-- The last token: only literals. -/
def emitTail (size : Nat) (out src : Bytes) (anchor body : Nat) : Option Bytes := do
  let out ← emitToken size out (body - anchor) 0
  let out ← emitExt size out (body - anchor)
  emitLiterals size out src anchor body

/-- The loop of `compress` from input position `ip`, with pending literals from `anchor` on; returns the final `anchor`
and the stream.  Every iteration moves on, so `body` is enough fuel. -/
def compressLoop (size : Nat) (src : Bytes) (body : Nat) :
    Nat → Nat → Nat → (Nat → Nat) → Bytes → Option (Nat × Bytes)
  | 0, _, anchor, _, out => some (anchor, out)
  | fuel + 1, ip, anchor, head, out =>
    if ip < body then
      let (mpos, mlen, h) := findMatch head src ip body
      if mlen ≥ MIN_MATCH then do
        let out ← emitMatch size out src anchor ip mpos mlen
        let stop := min (ip + mlen) body
        compressLoop size src body fuel stop stop (insertFrom src stop body (ip + 1) head) out
      else compressLoop size src body fuel (ip + 1) anchor (if h ≠ HASH_SIZE then insertAt head h ip else head) out
    else some (anchor, out)

end Compress

/-- The compressed form of a block body, when it is worth keeping. -/
def compress (BLOCK : Nat) (src : Bytes) : Option Bytes :=
  let body := BLOCK - 4
  if BLOCK < 4 ∨ src.length ≠ body then none
  else do
    let (anchor, out) ← Compress.compressLoop BLOCK src body body 0 0 (fun _ => 0xFFFFFFFF) []
    let out ← Compress.emitTail BLOCK out src anchor body
    if body - out.length ≥ COMPRESS_MIN_SAVING ∧ out.length < 2 ^ 15 then some out else none

namespace Compress

/-! ### Decoding -/

/-- Reads extension bytes.  A hostile run of 255s is cut off; the caller's length check then refuses the token. -/
def readExt : Bytes → Nat → Except DecompressError (Nat × Bytes)
  | [], _ => .error .truncated
  | b :: src, total =>
    let total := total + b.toNat
    if b ≠ 0xFF then .ok (total, src) else if total > 2 ^ 24 then .ok (total, src) else readExt src total

/-- A length: the nibble, and its extension when the nibble is full. -/
def readLen (nibble : Nat) (src : Bytes) : Except DecompressError (Nat × Bytes) :=
  if nibble = 15 then do
    let (n, src) ← readExt src 0
    return (15 + n, src)
  else .ok (nibble, src)

/-- Copies `n` bytes from `offset` bytes back, one at a time, so that a copied byte may be copied again. -/
def copyBytes (offset : Nat) : Nat → Bytes → Bytes
  | 0, dst => dst
  | n + 1, dst => copyBytes offset n (dst ++ [dst.getD (dst.length - offset) 0])

/-- Appends the match to what was decoded so far; disjoint ranges are copied in one go. -/
def copyMatch (dst : Bytes) (offset len : Nat) : Bytes :=
  if offset ≥ len then dst ++ (dst.drop (dst.length - offset)).take len else copyBytes offset len dst

/-- The loop of `decompress`: `src` is what is left of the stream, `dst` what was decoded.  A token takes at least its
tag byte, so the length of the stream is enough fuel. -/
def decompressLoop (outLen : Nat) : Nat → Bytes → Bytes → Except DecompressError Bytes
  | 0, _, dst => .ok dst
  | fuel + 1, src, dst =>
    if dst.length < outLen then
      match src with
      | [] => .error .truncated
      | tag :: src => do
        let (litLen, src) ← readLen (tag.toNat / 16) src
        if litLen > outLen - dst.length then throw .invalid
        if litLen > src.length then throw .truncated
        let dst := dst ++ src.take litLen
        let src := src.drop litLen
        if dst.length = outLen then return dst
        let (len, src) ← readLen (tag.toNat % 16) src
        let len := len + MIN_MATCH
        match src with
        | lo :: hi :: src =>
          let offset := lo.toNat + 256 * hi.toNat
          if offset = 0 ∨ offset > dst.length then throw .invalid
          if len > outLen - dst.length then throw .invalid
          decompressLoop outLen fuel src (copyMatch dst offset len)
        | _ => throw .truncated
    else .ok dst

end Compress

/-- Decodes a stream into `outLen` bytes; bytes behind its last token are ignored. -/
def decompress (src : Bytes) (outLen : Nat) : Except DecompressError Bytes :=
  Compress.decompressLoop outLen (src.length + 1) src []

namespace Compress

/-! ### What the encoder emits -/

/-- The extension bytes of a length. -/
def extBytes (len : Nat) : Bytes :=
  if len < 15 then [] else List.replicate ((len - 15) / 255) 0xFF ++ [UInt8.ofNat ((len - 15) % 255)]

/-- The tag byte of a token. -/
def tag (litLen tokMl : Nat) : UInt8 := UInt8.ofNat (min litLen 15 * 16 + min tokMl 15)

/-- The token of `litLen` literals `lits` and a match of `e + MIN_MATCH` bytes at distance `offset`. -/
def token (lits : Bytes) (e offset : Nat) : Bytes :=
  [tag lits.length e] ++ extBytes lits.length ++ lits ++ extBytes e ++
    [UInt8.ofNat (offset % 256), UInt8.ofNat (offset / 256 % 256)]

/-- The last token. -/
def tailToken (lits : Bytes) : Bytes := [tag lits.length 0] ++ extBytes lits.length ++ lits

theorem emit_eq_some {size : Nat} {out out' : Bytes} {b : UInt8} (h : emit size out b = some out') : out' = out ++ [b] := by
  unfold emit at h
  split at h
  · cases h
  · exact (Option.some.inj h).symm

theorem emitExtFrom_eq_some {size fuel rem : Nat} {out out' : Bytes} (h : emitExtFrom size fuel out rem = some out') :
    out' = out ++ (List.replicate (rem / 255) 0xFF ++ [UInt8.ofNat (rem % 255)]) := by
  induction fuel generalizing out rem with
  | zero => cases h
  | succ fuel ih =>
    rw [emitExtFrom] at h
    split at h
    · rename_i hrem
      obtain ⟨out₁, h₁, h₂⟩ := Option.bind_eq_some_iff.mp h
      have hdiv : rem / 255 = (rem - 255) / 255 + 1 := by omega
      have hmod : rem % 255 = (rem - 255) % 255 := by omega
      rw [ih h₂, emit_eq_some h₁, hdiv, hmod, List.replicate_succ]
      simp
    · rename_i hrem
      have hdiv : rem / 255 = 0 := by omega
      have hmod : rem % 255 = rem := by omega
      rw [emit_eq_some h, hdiv, hmod]
      rfl

theorem emitExt_eq_some {size len : Nat} {out out' : Bytes} (h : emitExt size out len = some out') :
    out' = out ++ extBytes len := by
  unfold emitExt at h
  unfold extBytes
  split at h
  · rename_i hlen
    rw [if_pos hlen, List.append_nil]
    exact (Option.some.inj h).symm
  · rename_i hlen
    rw [if_neg hlen]
    exact emitExtFrom_eq_some h

theorem emitLiterals_eq_some {size lo hi : Nat} {out out' src : Bytes} (h : emitLiterals size out src lo hi = some out') :
    out' = out ++ (src.drop lo).take (hi - lo) := by
  unfold emitLiterals at h
  split at h
  · cases h
  · exact (Option.some.inj h).symm

theorem emitU16_eq_some {size v : Nat} {out out' : Bytes} (h : emitU16 size out v = some out') :
    0 < v ∧ v ≤ 0xFFFF ∧ out' = out ++ [UInt8.ofNat (v % 256), UInt8.ofNat (v / 256 % 256)] := by
  unfold emitU16 at h
  split at h
  · cases h
  · rename_i hv
    obtain ⟨out₁, h₁, h₂⟩ := Option.bind_eq_some_iff.mp h
    refine ⟨by omega, by omega, ?_⟩
    rw [emit_eq_some h₂, emit_eq_some h₁, List.append_assoc]
    rfl

theorem emitMatch_eq_some {size anchor ip mpos mlen : Nat} {out out' src : Bytes} (hsrc : ip ≤ src.length)
    (h : emitMatch size out src anchor ip mpos mlen = some out') :
    0 < ip - mpos ∧ ip - mpos ≤ 0xFFFF ∧
      out' = out ++ token ((src.drop anchor).take (ip - anchor)) (mlen - MIN_MATCH) (ip - mpos) := by
  obtain ⟨o₁, h₁, h⟩ := Option.bind_eq_some_iff.mp h
  obtain ⟨o₂, h₂, h⟩ := Option.bind_eq_some_iff.mp h
  obtain ⟨o₃, h₃, h⟩ := Option.bind_eq_some_iff.mp h
  obtain ⟨o₄, h₄, h⟩ := Option.bind_eq_some_iff.mp h
  obtain ⟨hpos, hle, h₅⟩ := emitU16_eq_some h
  have hlen : ((src.drop anchor).take (ip - anchor)).length = ip - anchor := by simp; omega
  have htag : tag (ip - anchor) (min (mlen - MIN_MATCH) 15) = tag (ip - anchor) (mlen - MIN_MATCH) := by simp [tag]
  refine ⟨hpos, hle, ?_⟩
  rw [h₅, emitExt_eq_some h₄, emitLiterals_eq_some h₃, emitExt_eq_some h₂, emit_eq_some h₁, token, hlen]
  rw [← htag, tag]
  simp only [List.append_assoc]

theorem emitTail_eq_some {size anchor body : Nat} {out out' src : Bytes} (hsrc : body ≤ src.length)
    (h : emitTail size out src anchor body = some out') :
    out' = out ++ tailToken ((src.drop anchor).take (body - anchor)) := by
  obtain ⟨o₁, h₁, h⟩ := Option.bind_eq_some_iff.mp h
  obtain ⟨o₂, h₂, h⟩ := Option.bind_eq_some_iff.mp h
  have hlen : ((src.drop anchor).take (body - anchor)).length = body - anchor := by simp; omega
  rw [emitLiterals_eq_some h, emitExt_eq_some h₂, emit_eq_some h₁, tailToken, hlen, tag]
  simp only [List.append_assoc]

/-! ### Reading one token back -/

theorem tag_nibbles (litLen e : Nat) : (tag litLen e).toNat / 16 = min litLen 15 ∧ (tag litLen e).toNat % 16 = min e 15 := by
  have h : (tag litLen e).toNat = min litLen 15 * 16 + min e 15 := by
    unfold tag
    rw [UInt8.toNat_ofNat']
    omega
  rw [h]
  omega

theorem readExt_replicate (n last : Nat) (rest : Bytes) (total : Nat) (hlast : last < 255)
    (htotal : total + 255 * n ≤ 2 ^ 24) :
    readExt (List.replicate n 0xFF ++ ([UInt8.ofNat last] ++ rest)) total = .ok (total + 255 * n + last, rest) := by
  induction n generalizing total with
  | zero =>
    have hne : UInt8.ofNat last ≠ 0xFF := by
      intro hc
      have := congrArg UInt8.toNat hc
      rw [UInt8.toNat_ofNat'] at this
      simp at this
      omega
    have hval : (UInt8.ofNat last).toNat = last := by rw [UInt8.toNat_ofNat']; omega
    simp [readExt, hne, hval]
  | succ n ih =>
    have hff : (0xFF : UInt8).toNat = 255 := rfl
    rw [List.replicate_succ, List.cons_append, readExt]
    simp only [ne_eq, not_true_eq_false, if_false, hff]
    rw [if_neg (by omega), ih (total + 255) (by omega)]
    simp only [Except.ok.injEq, Prod.mk.injEq, and_true]
    omega

/-- A length comes back from its nibble and its extension. -/
theorem readLen_extBytes {len : Nat} (hlen : len ≤ 2 ^ 24) (rest : Bytes) :
    readLen (min len 15) (extBytes len ++ rest) = .ok (len, rest) := by
  unfold readLen extBytes
  by_cases h : len < 15
  · rw [if_neg (by omega), if_pos h, Nat.min_eq_left (by omega)]
    rfl
  · rw [if_pos (by omega), if_neg h, List.append_assoc, readExt_replicate _ _ _ _ (by omega) (by omega)]
    show Except.ok (15 + (0 + 255 * ((len - 15) / 255) + (len - 15) % 255), rest) = _
    congr 2
    omega

/-! ### Matches -/

theorem matchLen_le (cap : Nat) (as bs : Bytes) : matchLen cap as bs ≤ cap := by
  fun_induction matchLen cap as bs <;> omega

/-- The matched bytes agree. -/
theorem getElem?_matchLen {cap i : Nat} {as bs : Bytes} (h : i < matchLen cap as bs) : as[i]? = bs[i]? := by
  fun_induction matchLen cap as bs generalizing i with
  | case1 cap a as bs ih =>
    cases i with
    | zero => rfl
    | succ i => simpa using ih (by omega)
  | case2 cap a as b bs hne => omega
  | case3 => omega

/-- What the encoder relies on of a candidate: it lies before `ip`, and its bytes are those at `ip`. -/
theorem findMatch_spec {head : Nat → Nat} {src : Bytes} {ip body mpos mlen h : Nat}
    (hm : findMatch head src ip body = (mpos, mlen, h)) (hlen : MIN_MATCH ≤ mlen) :
    mpos < ip ∧ mlen ≤ body - ip ∧ mlen ≤ MAX_MATCH ∧ ∀ i < mlen, src[mpos + i]? = src[ip + i]? := by
  have hzero : ¬ MIN_MATCH ≤ 0 := by decide
  unfold findMatch at hm
  split at hm
  · simp only [Prod.mk.injEq] at hm
    omega
  dsimp only at hm
  split at hm
  · simp only [Prod.mk.injEq] at hm
    omega
  split at hm
  · simp only [Prod.mk.injEq] at hm
    omega
  · rename_i hcand
    simp only [Prod.mk.injEq] at hm
    obtain ⟨rfl, rfl, -⟩ := hm
    have hle := matchLen_le (min (body - ip) MAX_MATCH) (src.drop (head (hash src ip))) (src.drop ip)
    refine ⟨by omega, by omega, by omega, fun i hi => ?_⟩
    simpa using getElem?_matchLen hi

theorem length_copyBytes (offset n : Nat) (dst : Bytes) : (copyBytes offset n dst).length = dst.length + n := by
  induction n generalizing dst with
  | zero => rfl
  | succ n ih =>
    rw [copyBytes, ih, List.length_append, List.length_singleton]
    omega

/-- Copying byte by byte from `mpos` on continues a prefix of a string that repeats there. -/
theorem copyBytes_take {src : Bytes} {mpos ip n : Nat} (hpos : mpos < ip) (hn : ip + n ≤ src.length)
    (heq : ∀ i < n, src[mpos + i]? = src[ip + i]?) : copyBytes (ip - mpos) n (src.take ip) = src.take (ip + n) := by
  induction n generalizing mpos ip with
  | zero => rfl
  | succ n ih =>
    have hip : ip < src.length := by omega
    have hlen : (src.take ip).length = ip := by simp; omega
    have hbyte : (src.take ip).getD ((src.take ip).length - (ip - mpos)) 0 = src[ip] := by
      have h0 := heq 0 (by omega)
      rw [hlen, List.getD_eq_getElem?_getD, show ip - (ip - mpos) = mpos by omega, List.getElem?_take_of_lt hpos]
      rw [Nat.add_zero, Nat.add_zero, List.getElem?_eq_getElem hip] at h0
      rw [h0]
      rfl
    have hnext : src.take ip ++ [src[ip]] = src.take (ip + 1) := by rw [List.take_succ_eq_append_getElem hip]
    have hrest : ∀ i < n, src[mpos + 1 + i]? = src[ip + 1 + i]? := by
      intro i hi
      have := heq (i + 1) (by omega)
      rwa [show mpos + (i + 1) = mpos + 1 + i by omega, show ip + (i + 1) = ip + 1 + i by omega] at this
    have hgo := ih (by omega : mpos + 1 < ip + 1) (by omega) hrest
    rw [copyBytes, hbyte, hnext, show ip - mpos = ip + 1 - (mpos + 1) by omega, hgo]
    congr 1
    omega

theorem copyMatch_take {src : Bytes} {mpos ip n : Nat} (hpos : mpos < ip) (hn : ip + n ≤ src.length)
    (heq : ∀ i < n, src[mpos + i]? = src[ip + i]?) : copyMatch (src.take ip) (ip - mpos) n = src.take (ip + n) := by
  unfold copyMatch
  split
  · rename_i hoff
    have hlen : (src.take ip).length = ip := by simp; omega
    have hcopy : ((src.take ip).drop ((src.take ip).length - (ip - mpos))).take n = (src.drop ip).take n := by
      rw [hlen, show ip - (ip - mpos) = mpos by omega]
      refine List.ext_getElem? fun i => ?_
      rw [List.getElem?_take, List.getElem?_take]
      split
      · rename_i hi
        rw [List.getElem?_drop, List.getElem?_drop, List.getElem?_take_of_lt (by omega)]
        exact heq i hi
      · rfl
    rw [hcopy, List.take_add]
  · exact copyBytes_take hpos hn heq

/-! ### The stream decodes to the input -/

/-- Whatever follows it, the decoder reads `stream` in at most as many rounds as it has bytes, and has `dst` then. -/
def Decodes (outLen : Nat) (stream dst : Bytes) : Prop :=
  ∃ n ≤ stream.length, ∀ fuel rest,
    decompressLoop outLen (n + fuel) (stream ++ rest) [] = decompressLoop outLen fuel rest dst

theorem decodes_nil (outLen : Nat) : Decodes outLen [] [] := ⟨0, le_rfl, fun fuel rest => by simp⟩

theorem decompressLoop_token {outLen fuel e offset : Nat} {dst lits rest : Bytes} (hlits : lits.length ≤ 2 ^ 24)
    (he : e ≤ 2 ^ 24) (hlt : dst.length + lits.length < outLen) (ho : 0 < offset ∧ offset ≤ 0xFFFF)
    (hback : offset ≤ dst.length + lits.length) (hfit : dst.length + lits.length + (e + MIN_MATCH) ≤ outLen) :
    decompressLoop outLen (fuel + 1) (token lits e offset ++ rest) dst =
      decompressLoop outLen fuel rest (copyMatch (dst ++ lits) offset (e + MIN_MATCH)) := by
  obtain ⟨hhi, hlo⟩ := tag_nibbles lits.length e
  have hstream : token lits e offset ++ rest = tag lits.length e :: (extBytes lits.length ++ (lits ++ (extBytes e ++
      (UInt8.ofNat (offset % 256) :: UInt8.ofNat (offset / 256 % 256) :: rest)))) := by simp [token]
  have hoff : (UInt8.ofNat (offset % 256)).toNat + 256 * (UInt8.ofNat (offset / 256 % 256)).toNat = offset := by
    rw [UInt8.toNat_ofNat', UInt8.toNat_ofNat']
    omega
  rw [hstream, decompressLoop, if_pos (by omega)]
  simp only [hhi, readLen_extBytes hlits, bind, Except.bind]
  rw [if_neg (by omega), if_neg (by simp)]
  simp only [List.take_left, List.drop_left]
  rw [if_neg (by rw [List.length_append]; omega)]
  simp only [hlo, readLen_extBytes he, hoff]
  rw [if_neg (by rw [List.length_append]; omega), if_neg (by rw [List.length_append]; omega)]

theorem decompressLoop_tail (fuel : Nat) (dst rest : Bytes) {lits : Bytes} (hlits : lits.length ≤ 2 ^ 24) :
    decompressLoop (dst.length + lits.length) (fuel + 1) (tailToken lits ++ rest) dst = .ok (dst ++ lits) := by
  obtain ⟨hhi, -⟩ := tag_nibbles lits.length 0
  have hstream : tailToken lits ++ rest = tag lits.length 0 :: (extBytes lits.length ++ (lits ++ rest)) := by
    simp [tailToken]
  rw [hstream, decompressLoop]
  split
  · simp only [hhi, readLen_extBytes hlits, bind, Except.bind]
    rw [if_neg (by omega), if_neg (by simp)]
    simp only [List.take_left, List.length_append, if_true]
    rfl
  · rename_i hfull
    have : lits = [] := List.length_eq_zero_iff.mp (by omega)
    simp [this]

/-- One more token of the encoder. -/
theorem Decodes.token {src out : Bytes} {anchor ip mpos mlen : Nat} (h : Decodes src.length out (src.take anchor))
    (hip : anchor ≤ ip) (hpos : mpos < ip) (hlen : MIN_MATCH ≤ mlen) (hfit : mlen ≤ src.length - ip)
    (hmax : mlen ≤ MAX_MATCH) (hoff : ip - mpos ≤ 0xFFFF) (hlits : ip - anchor ≤ 2 ^ 24)
    (heq : ∀ i < mlen, src[mpos + i]? = src[ip + i]?) :
    Decodes src.length (out ++ Compress.token ((src.drop anchor).take (ip - anchor)) (mlen - MIN_MATCH) (ip - mpos))
      (src.take (ip + mlen)) := by
  obtain ⟨n, hn, hrun⟩ := h
  have hmin : MIN_MATCH = 4 := rfl
  have hmaxv : MAX_MATCH = 2 ^ 16 := rfl
  have hlitlen : ((src.drop anchor).take (ip - anchor)).length = ip - anchor := by simp; omega
  have hdst : (src.take anchor).length = anchor := by simp; omega
  have hjoin : src.take anchor ++ (src.drop anchor).take (ip - anchor) = src.take ip := by
    rw [← List.take_add, show anchor + (ip - anchor) = ip by omega]
  refine ⟨n + 1, ?_, fun fuel rest => ?_⟩
  · simp only [Compress.token, List.length_append, List.length_singleton]
    omega
  · rw [List.append_assoc, show n + 1 + fuel = n + (fuel + 1) by omega, hrun,
      decompressLoop_token (by omega) (by omega) (by omega) (by omega) (by omega) (by omega), hjoin,
      show mlen - MIN_MATCH + MIN_MATCH = mlen by omega, copyMatch_take hpos (by omega) heq]

/-- The stream only grows. -/
theorem compressLoop_length_le {size body fuel ip anchor anchor' : Nat} {src out out' : Bytes} {head : Nat → Nat}
    (h : compressLoop size src body fuel ip anchor head out = some (anchor', out')) (hip : anchor ≤ ip)
    (hbody : body ≤ src.length) (hsrc : ip ≤ body) : out.length ≤ out'.length := by
  induction fuel generalizing ip anchor head out with
  | zero =>
    obtain ⟨-, rfl⟩ := Prod.mk.inj (Option.some.inj h)
    exact le_rfl
  | succ fuel ih =>
    rw [compressLoop] at h
    split at h
    · dsimp only at h
      split at h
      · obtain ⟨out₁, h₁, h₂⟩ := Option.bind_eq_some_iff.mp h
        obtain ⟨-, -, hout⟩ := emitMatch_eq_some (by omega) h₁
        have hlen : out.length ≤ out₁.length := by rw [hout, List.length_append]; omega
        exact hlen.trans (ih h₂ le_rfl (min_le_right _ _))
      · exact ih h (by omega) (by omega)
    · obtain ⟨-, rfl⟩ := Prod.mk.inj (Option.some.inj h)
      exact le_rfl

/-- The loop of the encoder: what it has emitted decodes to the input before the pending literals.  A short stream has
short literals, so the decoder never cuts a length off. -/
theorem compressLoop_decodes {size fuel ip anchor anchor' : Nat} {src out out' : Bytes} {head : Nat → Nat}
    (h : compressLoop size src src.length fuel ip anchor head out = some (anchor', out')) (hip : anchor ≤ ip)
    (hsrc : ip ≤ src.length) (hshort : out'.length ≤ 2 ^ 24) (hdec : Decodes src.length out (src.take anchor)) :
    anchor' ≤ src.length ∧ Decodes src.length out' (src.take anchor') := by
  induction fuel generalizing ip anchor head out with
  | zero =>
    obtain ⟨rfl, rfl⟩ := Prod.mk.inj (Option.some.inj h)
    exact ⟨by omega, hdec⟩
  | succ fuel ih =>
    rw [compressLoop] at h
    split at h
    · rename_i hlt
      rcases hm : findMatch head src ip src.length with ⟨mpos, mlen, b⟩
      rw [hm] at h
      dsimp only at h
      split at h
      · rename_i hmlen
        obtain ⟨out₁, h₁, h₂⟩ := Option.bind_eq_some_iff.mp h
        obtain ⟨hpos, hfit, hmax, heq⟩ := findMatch_spec hm hmlen
        obtain ⟨-, hoff, hout⟩ := emitMatch_eq_some hsrc h₁
        rw [min_eq_left (by omega : ip + mlen ≤ src.length)] at h₂
        have hlits : ip - anchor ≤ out₁.length := by
          rw [hout]
          simp [token]
          omega
        have hgrow := compressLoop_length_le h₂ le_rfl le_rfl (by omega)
        refine ih h₂ le_rfl (by omega) ?_
        rw [hout]
        exact hdec.token hip hpos hmlen hfit hmax hoff (by omega) heq
      · exact ih h (by omega) (by omega) hdec
    · obtain ⟨rfl, rfl⟩ := Prod.mk.inj (Option.some.inj h)
      exact ⟨by omega, hdec⟩

end Compress

/-- What `compress` returns is short enough for the flag of a block. -/
theorem length_of_compress {BLOCK : Nat} {src c : Bytes} (h : compress BLOCK src = some c) :
    src.length = BLOCK - 4 ∧ c.length + COMPRESS_MIN_SAVING ≤ BLOCK - 4 ∧ c.length < 2 ^ 15 := by
  have hmin : COMPRESS_MIN_SAVING = 128 := rfl
  unfold compress at h
  dsimp only at h
  split at h
  · cases h
  · rename_i hlen
    obtain ⟨⟨anchor, out⟩, -, h⟩ := Option.bind_eq_some_iff.mp h
    obtain ⟨out', -, h⟩ := Option.bind_eq_some_iff.mp h
    split at h
    · obtain rfl := Option.some.inj h
      omega
    · cases h

/-- The decoder inverts the encoder; bytes behind the stream do not matter. -/
theorem decompress_compress {BLOCK : Nat} {src c : Bytes} (h : compress BLOCK src = some c) (rest : Bytes) :
    decompress (c ++ rest) (BLOCK - 4) = .ok src := by
  obtain ⟨hsrc, -, hshort⟩ := length_of_compress h
  unfold compress at h
  dsimp only at h
  split at h
  · cases h
  · obtain ⟨⟨anchor, out⟩, hloop, h⟩ := Option.bind_eq_some_iff.mp h
    obtain ⟨out', htail, h⟩ := Option.bind_eq_some_iff.mp h
    dsimp only at htail
    split at h
    · obtain rfl := Option.some.inj h
      rw [← hsrc] at hloop htail ⊢
      have hout := Compress.emitTail_eq_some le_rfl htail
      have hle : out.length ≤ out'.length := by rw [hout, List.length_append]; omega
      obtain ⟨hanchor, n, hn, hrun⟩ := Compress.compressLoop_decodes hloop le_rfl (Nat.zero_le _) (by omega)
        (Compress.decodes_nil _)
      have hlits : ((src.drop anchor).take (src.length - anchor)).length = src.length - anchor := by simp
      have hlitsle : src.length - anchor ≤ out'.length := by
        rw [hout, Compress.tailToken, List.length_append, List.length_append, hlits]
        omega
      have htake : (src.take anchor).length = anchor := by simp; omega
      have hjoin : src.take anchor ++ (src.drop anchor).take (src.length - anchor) = src := by
        rw [← List.take_add, show anchor + (src.length - anchor) = src.length by omega, List.take_length]
      have hlast := Compress.decompressLoop_tail ((out' ++ rest).length - n) (src.take anchor) rest
        (by omega : ((src.drop anchor).take (src.length - anchor)).length ≤ 2 ^ 24)
      rw [hlits, htake, show anchor + (src.length - anchor) = src.length by omega, hjoin] at hlast
      rw [← hlast, ← hrun, decompress, hout, List.append_assoc]
      congr 1
      simp only [List.length_append]
      omega
    · cases h

end Horton
