import Horton.Basic
import Horton.Crc
import Mathlib.Data.Option.Basic

/-!
# WAL records

The record codec of `wal.rs`: `magic | len | seq | op | key_len | val_len | key | val | [expire_at] | crc32`, all
little-endian.  `len` covers everything after itself, the checksum everything between the magic and itself.  The high
bit of the `op` byte marks a record that more records of the same atomic group follow.
-/

namespace Horton

def WAL_MAGIC : Nat := 0x6C73

def MORE : UInt8 := 0x80

def WAL_HEADER_LEN : Nat := 19

def WAL_TRAILER_LEN : Nat := 4

def WAL_RECORD_OVERHEAD : Nat := WAL_HEADER_LEN + WAL_TRAILER_LEN

inductive Op
  | put
  | delete
  | rangeDelete
  | putTtl
  deriving DecidableEq, Repr

namespace Op

def toU8 : Op → UInt8
  | put => 1
  | delete => 2
  | rangeDelete => 3
  | putTtl => 4

def fromU8 (byte : UInt8) : Option Op :=
  if byte = 1 then some put
  else if byte = 2 then some delete
  else if byte = 3 then some rangeDelete
  else if byte = 4 then some putTtl
  else none

end Op

/-- What a WAL record says.  For a range tombstone `key` is the inclusive start and `val` the exclusive end;
`expireAt` is 0 unless the op is `putTtl`. -/
structure Record where
  seq : Nat
  op : Op
  more : Bool
  key : Bytes
  val : Bytes
  expireAt : Nat
  deriving DecidableEq, Repr

/-- A decoded record with the number of bytes it takes. -/
structure Decoded where
  record : Record
  totalLen : Nat
  deriving DecidableEq, Repr

inductive Scan
  | record (d : Decoded)
  | cleanEnd
  | corrupt
  deriving DecidableEq, Repr

def recordLen (keyLen valLen : Nat) : Nat := WAL_RECORD_OVERHEAD + keyLen + valLen

def recordLenTtl (keyLen valLen : Nat) : Nat := WAL_RECORD_OVERHEAD + keyLen + valLen + 8

namespace Record

/-- The expiry that a `putTtl` record appends to its value. -/
def extra (r : Record) : Bytes := if r.op = .putTtl then Bytes.leBytes 8 r.expireAt else []

def opByte (r : Record) : UInt8 := r.op.toU8 ||| (if r.more then MORE else 0)

/-- The number of bytes `encodeRecord` writes. -/
def len (r : Record) : Nat := WAL_RECORD_OVERHEAD + r.key.length + r.val.length + r.extra.length

/-- The values the wire fields can hold. -/
structure WF (r : Record) : Prop where
  seq_lt : r.seq < 2 ^ 64
  key_le : r.key.length ≤ U16_MAX
  val_le : r.val.length ≤ U16_MAX
  expire_lt : r.expireAt < 2 ^ 64
  expire_zero : r.op ≠ .putTtl → r.expireAt = 0

end Record

/-- The fields of a record between its magic and its checksum. -/
def bodyFields (r : Record) : List Bytes :=
  [Bytes.leBytes 4 (17 + r.key.length + r.val.length + r.extra.length), Bytes.leBytes 8 r.seq, [r.opByte],
    Bytes.leBytes 2 r.key.length, Bytes.leBytes 2 r.val.length, r.key, r.val, r.extra]

def encodeBody (r : Record) : Bytes := (bodyFields r).flatten

def encodeRecord (r : Record) : Bytes :=
  [Bytes.leBytes 2 WAL_MAGIC, encodeBody r, Bytes.leBytes 4 (crc32 (encodeBody r))].flatten

def encodeRecords (rs : List Record) : Bytes := rs.flatMap encodeRecord

/-- Decodes one record at the start of `buf`; `none` for anything that is not a fully intact, CRC-valid record. -/
def decodeRecord (buf : Bytes) : Option Decoded := do
  guard (buf.length ≥ WAL_HEADER_LEN)
  let magic ← Bytes.slice buf 0 2
  guard (Bytes.leNat magic = WAL_MAGIC)
  let lenBytes ← Bytes.slice buf 2 4
  let len := Bytes.leNat lenBytes
  let total := len + 6
  guard (total ≤ buf.length)
  let seqBytes ← Bytes.slice buf 6 8
  let opByte ← buf[14]?
  let op ← Op.fromU8 (opByte &&& ~~~MORE)
  let more := decide (opByte &&& MORE ≠ 0)
  let klBytes ← Bytes.slice buf 15 2
  let vlBytes ← Bytes.slice buf 17 2
  let kl := Bytes.leNat klBytes
  let vl := Bytes.leNat vlBytes
  let el := if op = .putTtl then 8 else 0
  guard (WAL_RECORD_OVERHEAD - 6 + kl + vl + el = len)
  let key ← Bytes.slice buf 19 kl
  let val ← Bytes.slice buf (19 + kl) vl
  let expiryOff := 19 + kl + vl
  let expiry ← Bytes.slice buf expiryOff el
  let crcAt := expiryOff + el
  let stored ← Bytes.slice buf crcAt 4
  let body ← Bytes.slice buf 2 (crcAt - 2)
  guard (crc32 body = Bytes.leNat stored)
  return ⟨⟨Bytes.leNat seqBytes, op, more, key, val, Bytes.leNat expiry⟩, total⟩

/-- Classifies the data at the current block offset. -/
def scanRecord (buf : Bytes) : Scan :=
  if Bytes.allZero buf then .cleanEnd
  else match decodeRecord buf with
    | some d => .record d
    | none => .corrupt

/-! ### Lengths -/

theorem Record.length_extra (r : Record) : r.extra.length = if r.op = .putTtl then 8 else 0 := by
  unfold Record.extra; split <;> simp

theorem length_encodeRecord (r : Record) : (encodeRecord r).length = r.len := by
  simp [encodeRecord, encodeBody, bodyFields, Record.len, WAL_RECORD_OVERHEAD, WAL_HEADER_LEN, WAL_TRAILER_LEN]
  omega

theorem Record.len_pos (r : Record) : 0 < r.len := by
  simp only [Record.len, WAL_RECORD_OVERHEAD, WAL_HEADER_LEN, WAL_TRAILER_LEN]; omega

@[simp] theorem encodeRecords_nil : encodeRecords [] = [] := rfl

@[simp] theorem encodeRecords_cons (r : Record) (rs : List Record) :
    encodeRecords (r :: rs) = encodeRecord r ++ encodeRecords rs := by simp [encodeRecords]

@[simp] theorem encodeRecords_append (rs ss : List Record) :
    encodeRecords (rs ++ ss) = encodeRecords rs ++ encodeRecords ss := by simp [encodeRecords]

/-! ### Decoding an encoded record -/

private theorem op_roundtrip (op : Op) (more : Bool) :
    Op.fromU8 ((op.toU8 ||| (if more then MORE else 0)) &&& ~~~MORE) = some op ∧
      decide ((op.toU8 ||| (if more then MORE else 0)) &&& MORE ≠ 0) = more := by
  cases op <;> cases more <;> decide

/-- The fields the decoder slices out of an encoded record, each at the offset where the encoder put it. -/
private theorem slice_encodeRecord (r : Record) (tail : Bytes) (i off : Nat) {f : Bytes} (hf : (bodyFields r)[i]? = some f)
    {len : Nat} (ho : off = 2 + (((bodyFields r).take i).map List.length).sum) (hl : len = f.length) :
    Bytes.slice (encodeRecord r ++ tail) off len = some f := by
  have hE : encodeRecord r ++ tail =
      (Bytes.leBytes 2 WAL_MAGIC :: bodyFields r).flatten ++ (Bytes.leBytes 4 (crc32 (encodeBody r)) ++ tail) := by
    simp [encodeRecord, encodeBody]
  rw [hE]
  refine Bytes.slice_field _ (i + 1) (by simpa using hf) ?_ hl
  simp [ho]

theorem decodeRecord_encodeRecord {r : Record} (h : r.WF) (tail : Bytes) :
    decodeRecord (encodeRecord r ++ tail) = some ⟨r, r.len⟩ := by
  obtain ⟨hop, hmore⟩ := op_roundtrip r.op r.more
  have hk := h.key_le
  have hv := h.val_le
  simp only [U16_MAX] at hk hv
  have he := r.length_extra
  have hel : r.extra.length ≤ 8 := by rw [he]; split <;> simp
  have hex : Bytes.leNat r.extra = r.expireAt := by
    unfold Record.extra
    split
    · exact Bytes.leNat_leBytes_of_lt (by have := h.expire_lt; omega)
    · rename_i hne; rw [h.expire_zero hne]; rfl
  have hlen : (encodeRecord r ++ tail).length = r.len + tail.length := by
    rw [List.length_append, length_encodeRecord]
  have hl : r.len = 23 + r.key.length + r.val.length + r.extra.length := rfl
  have s0 : Bytes.slice (encodeRecord r ++ tail) 0 2 = some (Bytes.leBytes 2 WAL_MAGIC) :=
    Bytes.slice_field tail 0 rfl rfl (by simp)
  have s2 : Bytes.slice _ 2 4 = _ := slice_encodeRecord r tail 0 2 rfl rfl (by simp)
  have s6 : Bytes.slice _ 6 8 = _ := slice_encodeRecord r tail 1 6 rfl (by simp [bodyFields]) (by simp)
  have s14 := Bytes.getElem?_of_slice (slice_encodeRecord r tail 2 14 rfl (by simp [bodyFields]) (by simp))
  have s15 : Bytes.slice _ 15 2 = _ := slice_encodeRecord r tail 3 15 rfl (by simp [bodyFields]) (by simp)
  have s17 : Bytes.slice _ 17 2 = _ := slice_encodeRecord r tail 4 17 rfl (by simp [bodyFields]) (by simp)
  have s19 := slice_encodeRecord r tail 5 19 rfl (by simp [bodyFields]) rfl
  have sv := slice_encodeRecord r tail 6 (19 + r.key.length) rfl (by simp [bodyFields]; omega) rfl
  have sx := slice_encodeRecord r tail 7 (19 + r.key.length + r.val.length) rfl
    (by simp [bodyFields]; omega) he.symm
  have sc : Bytes.slice (encodeRecord r ++ tail) (19 + r.key.length + r.val.length + r.extra.length) 4 =
      some (Bytes.leBytes 4 (crc32 (encodeBody r))) :=
    Bytes.slice_field tail 2 rfl (by simp [encodeBody, bodyFields]; omega) (by simp)
  have sb : Bytes.slice (encodeRecord r ++ tail) 2 (19 + r.key.length + r.val.length + r.extra.length - 2) =
      some (encodeBody r) :=
    Bytes.slice_field tail 1 rfl (by simp) (by simp [encodeBody, bodyFields]; omega)
  have n2 : Bytes.leNat (Bytes.leBytes 2 WAL_MAGIC) = WAL_MAGIC := by decide
  have nl : Bytes.leNat (Bytes.leBytes 4 (17 + r.key.length + r.val.length + r.extra.length)) =
      17 + r.key.length + r.val.length + r.extra.length := Bytes.leNat_leBytes_of_lt (by omega)
  have ns : Bytes.leNat (Bytes.leBytes 8 r.seq) = r.seq :=
    Bytes.leNat_leBytes_of_lt (by have := h.seq_lt; omega)
  have nk : Bytes.leNat (Bytes.leBytes 2 r.key.length) = r.key.length := Bytes.leNat_leBytes_of_lt (by omega)
  have nv : Bytes.leNat (Bytes.leBytes 2 r.val.length) = r.val.length := Bytes.leNat_leBytes_of_lt (by omega)
  have nc : Bytes.leNat (Bytes.leBytes 4 (crc32 (encodeBody r))) = crc32 (encodeBody r) :=
    Bytes.leNat_leBytes_of_lt (by have := crc32_lt (encodeBody r); omega)
  generalize encodeRecord r ++ tail = buf at *
  rw [he] at s2 sc sb nl hl
  have hge : buf.length ≥ WAL_HEADER_LEN := by simp only [WAL_HEADER_LEN]; omega
  have hop' : Op.fromU8 (r.opByte &&& ~~~MORE) = some r.op := hop
  have hmore' : decide (r.opByte &&& MORE ≠ 0) = r.more := hmore
  have hsum : WAL_RECORD_OVERHEAD - 6 + r.key.length + r.val.length + (if r.op = .putTtl then 8 else 0) =
      17 + r.key.length + r.val.length + (if r.op = .putTtl then 8 else 0) := rfl
  have htot : r.len ≤ buf.length := by omega
  have htl : 17 + r.key.length + r.val.length + (if r.op = .putTtl then 8 else 0) + 6 = r.len := by omega
  simp only [decodeRecord, guard, if_pos, hge, s0, s2, s6, s14, n2, nl, hop', hmore', s15, s17, nk, nv,
    Option.bind_eq_bind, Option.bind_some, htot, hsum, s19, sv, sx, sc, sb, nc, ns, hex, htl, Option.pure_def]

theorem scanRecord_encodeRecord {r : Record} (h : r.WF) (tail : Bytes) :
    scanRecord (encodeRecord r ++ tail) = .record ⟨r, r.len⟩ := by
  have hz : Bytes.allZero (encodeRecord r ++ tail) = false := by
    simp [encodeRecord, Bytes.allZero, WAL_MAGIC, Bytes.leBytes]
  simp [scanRecord, hz, decodeRecord_encodeRecord h]

/-! ### What a decoded record says about the buffer -/

private theorem opByte_eq {b : UInt8} {op : Op} (h : Op.fromU8 (b &&& ~~~MORE) = some op) :
    op.toU8 ||| (if decide (b &&& MORE ≠ 0) then MORE else 0) = b := by
  have hall : ∀ (op : Op) (b : Fin 256), Op.fromU8 (UInt8.ofFin b &&& ~~~MORE) = some op →
      op.toU8 ||| (if decide (UInt8.ofFin b &&& MORE ≠ 0) then MORE else 0) = UInt8.ofFin b := by
    intro op
    cases op <;> decide +kernel
  exact hall op b.toFin h

/-- Bytes that pass for a record are its encoding. -/
theorem decodeRecord_exact {buf : Bytes} {d : Decoded} (h : decodeRecord buf = some d) :
    d.record.WF ∧ d.totalLen ≤ buf.length ∧ buf.take d.totalLen = encodeRecord d.record := by
  obtain ⟨_, -, h⟩ := Option.bind_eq_some_iff.mp h
  obtain ⟨m, hm, h⟩ := Option.bind_eq_some_iff.mp h
  obtain ⟨_, hmagic, h⟩ := Option.bind_eq_some_iff.mp h
  obtain ⟨lenBytes, hlenb, h⟩ := Option.bind_eq_some_iff.mp h
  obtain ⟨_, htotal, h⟩ := Option.bind_eq_some_iff.mp h
  obtain ⟨seqBytes, hseq, h⟩ := Option.bind_eq_some_iff.mp h
  obtain ⟨opByte, hopb, h⟩ := Option.bind_eq_some_iff.mp h
  obtain ⟨op, hop, h⟩ := Option.bind_eq_some_iff.mp h
  obtain ⟨klBytes, hkl, h⟩ := Option.bind_eq_some_iff.mp h
  obtain ⟨vlBytes, hvl, h⟩ := Option.bind_eq_some_iff.mp h
  obtain ⟨_, hlen, h⟩ := Option.bind_eq_some_iff.mp h
  obtain ⟨key, hkey, h⟩ := Option.bind_eq_some_iff.mp h
  obtain ⟨val, hval, h⟩ := Option.bind_eq_some_iff.mp h
  obtain ⟨expiry, hexp, h⟩ := Option.bind_eq_some_iff.mp h
  obtain ⟨stored, hst, h⟩ := Option.bind_eq_some_iff.mp h
  obtain ⟨body, hbody, h⟩ := Option.bind_eq_some_iff.mp h
  obtain ⟨_, hcrc, h⟩ := Option.bind_eq_some_iff.mp h
  obtain rfl := Option.some.inj h
  rw [Option.guard_eq_some'] at hmagic htotal hlen hcrc
  have lm := Bytes.length_slice hm
  have ll := Bytes.length_slice hlenb
  have ls := Bytes.length_slice hseq
  have lkl := Bytes.length_slice hkl
  have lvl := Bytes.length_slice hvl
  have lk := Bytes.length_slice hkey
  have lv := Bytes.length_slice hval
  have le := Bytes.length_slice hexp
  have lst := Bytes.length_slice hst
  have hlt : ∀ {bs : Bytes} {n : Nat}, bs.length = n → Bytes.leNat bs < 256 ^ n := by
    rintro bs n rfl
    exact Bytes.leNat_lt bs
  have hexpb : (if op = .putTtl then Bytes.leBytes 8 (Bytes.leNat expiry) else []) = expiry := by
    by_cases ho : op = .putTtl
    · rw [if_pos ho] at le ⊢
      rw [← le, Bytes.leBytes_leNat]
    · rw [if_neg ho] at le ⊢
      exact (List.length_eq_zero_iff.mp le).symm
  refine ⟨⟨hlt ls, ?_, ?_, ?_, ?_⟩, htotal, ?_⟩
  · have := hlt lkl
    simp only [lk, U16_MAX]
    omega
  · have := hlt lvl
    simp only [lv, U16_MAX]
    omega
  · have := hlt le
    dsimp only
    split at this
    · omega
    · omega
  · intro ho
    dsimp only at ho ⊢
    rw [if_neg ho] at le
    rw [List.length_eq_zero_iff.mp le]
    rfl
  · -- The slices follow one another from the start of the buffer to the end of the checksum.
    have hsum : WAL_RECORD_OVERHEAD - 6 = 17 := rfl
    rw [hsum] at hlen
    have s14 := Bytes.slice_of_getElem? hopb
    have h13 := Bytes.slice_trans (Bytes.slice_trans hlenb hseq rfl) s14 rfl
    have h17 := Bytes.slice_trans (Bytes.slice_trans h13 hkl rfl) hvl rfl
    have hchain := Bytes.slice_trans (Bytes.slice_trans (Bytes.slice_trans h17 hkey rfl) hval (by omega)) hexp (by omega)
    have hb : body = lenBytes ++ seqBytes ++ [opByte] ++ klBytes ++ vlBytes ++ key ++ val ++ expiry := by
      have : 4 + 8 + 1 + 2 + 2 + Bytes.leNat klBytes + Bytes.leNat vlBytes + (if op = .putTtl then 8 else 0) =
          19 + Bytes.leNat klBytes + Bytes.leNat vlBytes + (if op = .putTtl then 8 else 0) - 2 := by omega
      rw [this] at hchain
      exact Option.some.inj (hbody.symm.trans hchain)
    have hwhole := Bytes.slice_trans (Bytes.slice_trans hm hbody rfl) hst (by omega)
    obtain ⟨-, hw⟩ := Bytes.slice_eq_some hwhole
    have hE : encodeBody ⟨Bytes.leNat seqBytes, op, decide (opByte &&& MORE ≠ 0), key, val, Bytes.leNat expiry⟩ = body := by
      have hx : Record.extra ⟨Bytes.leNat seqBytes, op, decide (opByte &&& MORE ≠ 0), key, val, Bytes.leNat expiry⟩ = expiry :=
        hexpb
      have hob : Record.opByte ⟨Bytes.leNat seqBytes, op, decide (opByte &&& MORE ≠ 0), key, val, Bytes.leNat expiry⟩ = opByte :=
        opByte_eq hop
      have h4 : Bytes.leBytes 4 (17 + key.length + val.length + expiry.length) = lenBytes := by
        rw [lk, lv, le, hlen, ← ll, Bytes.leBytes_leNat]
      have h8 : Bytes.leBytes 8 (Bytes.leNat seqBytes) = seqBytes := by rw [← ls, Bytes.leBytes_leNat]
      have h2 : Bytes.leBytes 2 key.length = klBytes := by rw [lk, ← lkl, Bytes.leBytes_leNat]
      have h2' : Bytes.leBytes 2 val.length = vlBytes := by rw [lv, ← lvl, Bytes.leBytes_leNat]
      rw [hb, encodeBody, bodyFields, hx, hob]
      simp only [h4, h8, h2, h2']
      simp
    rw [encodeRecord, hE]
    have hmag : Bytes.leBytes 2 WAL_MAGIC = m := by rw [← hmagic, ← lm, Bytes.leBytes_leNat]
    have hsto : Bytes.leBytes 4 (crc32 body) = stored := by rw [hcrc, ← lst, Bytes.leBytes_leNat]
    rw [hmag, hsto]
    simp only [List.flatten_cons, List.flatten_nil, List.append_nil, ← List.append_assoc]
    rw [hw, List.drop_zero]
    congr 1
    omega

theorem decodeRecord_totalLen {buf : Bytes} {d : Decoded} (h : decodeRecord buf = some d) :
    d.totalLen = d.record.len ∧ d.totalLen ≤ buf.length := by
  obtain ⟨-, hle, he⟩ := decodeRecord_exact h
  have := congrArg List.length he
  rw [List.length_take, length_encodeRecord] at this
  exact ⟨by omega, hle⟩

theorem decodeRecord_magic {buf : Bytes} {d : Decoded} (h : decodeRecord buf = some d) :
    ∃ m, Bytes.slice buf 0 2 = some m ∧ Bytes.leNat m = WAL_MAGIC := by
  obtain ⟨-, -, he⟩ := decodeRecord_exact h
  refine ⟨Bytes.leBytes 2 WAL_MAGIC, ?_, by decide⟩
  rw [← List.take_append_drop d.totalLen buf, he]
  exact Bytes.slice_field _ 0 rfl rfl (by simp)

theorem scanRecord_eq_record {buf : Bytes} {d : Decoded} (h : scanRecord buf = .record d) : decodeRecord buf = some d := by
  unfold scanRecord at h
  split at h
  · simp at h
  · split at h
    · rename_i hd; rw [hd]; simpa using h
    · simp at h

/-- The record codec: an encoded record comes back with its length, whatever follows it; and bytes that decode are the
encoding of what they decode to. -/
theorem record_codec :
    (∀ (op : Op) (more : Bool) (seq expireAt : UInt64) (key val tail : Bytes), key.length ≤ 65535 → val.length ≤ 65535 →
      let r : Record := ⟨seq.toNat, op, more, key, val, if op = .putTtl then expireAt.toNat else 0⟩
      decodeRecord (encodeRecord r ++ tail) = some ⟨r, (encodeRecord r).length⟩) ∧
      ∀ buf d, decodeRecord buf = some d → d.totalLen ≤ buf.length ∧ encodeRecord d.record = buf.take d.totalLen := by
  constructor
  · intro op more seq expireAt key val tail hkey hval r
    have hwf : r.WF := by
      refine ⟨seq.toNat_lt, hkey, hval, ?_, ?_⟩
      · show (if op = .putTtl then expireAt.toNat else 0) < 2 ^ 64
        split
        · exact expireAt.toNat_lt
        · decide
      · intro hop
        exact if_neg hop
    rw [decodeRecord_encodeRecord hwf, length_encodeRecord]
  · intro buf d h
    obtain ⟨-, hle, htake⟩ := decodeRecord_exact h
    exact ⟨hle, htake.symm⟩

/-- A record with an expiry in front of other bytes. -/
theorem record_codec_ttl : decodeRecord (encodeRecord ⟨7, .putTtl, true, [1, 2], [3], 9⟩ ++ [0, 5]) =
      some ⟨⟨7, .putTtl, true, [1, 2], [3], 9⟩, 34⟩ ∧
    encodeRecord ⟨7, .putTtl, true, [1, 2], [3], 9⟩ =
      (encodeRecord ⟨7, .putTtl, true, [1, 2], [3], 9⟩ ++ [0, 5]).take 34 := by
  have h := record_codec.1 .putTtl true 7 9 [1, 2] [3] [0, 5] (by decide) (by decide)
  exact ⟨h, (record_codec.2 _ _ h).2⟩

end Horton
