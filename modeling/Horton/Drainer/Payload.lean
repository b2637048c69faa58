import Horton.Db.Write
import Horton.Ring.Basic

/-!
# Ring payloads

The 32-byte payload of a ring slot: one mutation, as `op | a | b | bytes`, where `a` and `b` are the lengths of its two
byte strings and a TTL put has its expiry in front of them.
-/

namespace Horton.Drainer

open Bytes

inductive DecodeError
  | badOp
  | badKeyLen
  | badValLen
  deriving DecidableEq, Repr

/-- `[u8; 32]` with a header, then `body`, zeros behind. -/
def pack (op : Op) (a b : Nat) (body : Bytes) : Bytes :=
  splice (splice (zeros 32) 0 [op.toU8, UInt8.ofNat a, UInt8.ofNat b]) 3 body

def encodePut (key val : Bytes) : Option Bytes :=
  if key.length > 255 ∨ val.length > 255 then none
  else if key.length = 0 ∨ key.length > 29 ∨ key.length + val.length > 29 then none
  else some (pack .put key.length val.length (key ++ val))

def encodeDelete (key : Bytes) : Option Bytes :=
  if key.length > 255 then none
  else if key.length = 0 ∨ key.length > 29 then none
  else some (pack .delete key.length 0 key)

/-- An inverted range encodes too; it applies as a no-op. -/
def encodeRangeDelete (start stop : Bytes) : Option Bytes :=
  if start.length > 255 ∨ stop.length > 255 then none
  else if start.length = 0 ∨ stop.length = 0 ∨ start.length + stop.length > 29 then none
  else some (pack .rangeDelete start.length stop.length (start ++ stop))

/-- No expiry encodes a plain put. -/
def encodePutTtl (key val : Bytes) (expireAt : UInt64) : Option Bytes :=
  if expireAt = 0 then encodePut key val
  else if key.length > 255 ∨ val.length > 255 then none
  else if key.length = 0 ∨ 8 + key.length + val.length > 29 then none
  else some (pack .putTtl key.length val.length (leBytes 8 expireAt.toNat ++ key ++ val))

/-- `&p[off..off + len]`. -/
def field (p : Bytes) (off len : Nat) : Bytes := (p.drop off).take len

/-- Decodes a payload; malformed ones are never taken for a mutation. -/
def decode (p : Bytes) : Except DecodeError Mutation :=
  let a := (p.getD 1 0).toNat
  let b := (p.getD 2 0).toNat
  match Op.fromU8 (p.getD 0 0) with
  | none => .error .badOp
  | some .put =>
    if a = 0 ∨ a > 29 then .error .badKeyLen
    else if a + b > 29 then .error .badValLen
    else .ok (.put (field p 3 a) (field p (3 + a) b))
  | some .delete =>
    if a = 0 ∨ a > 29 then .error .badKeyLen
    else if b ≠ 0 then .error .badValLen
    else .ok (.delete (field p 3 a))
  | some .rangeDelete =>
    if a = 0 ∨ a > 29 ∨ b = 0 ∨ b > 29 then .error .badKeyLen
    else if a + b > 29 then .error .badValLen
    else .ok (.rangeDelete (field p 3 a) (field p (3 + a) b))
  | some .putTtl =>
    if a = 0 ∨ a > 21 then .error .badKeyLen
    else if 8 + a + b > 29 then .error .badValLen
    else .ok (.putTtl (field p 11 a) (field p (11 + a) b) (UInt64.ofNat (leNat (field p 3 8))))

/-! ### The codec -/

/-- The encoder of each mutation. -/
def encode : Mutation → Option Bytes
  | .put key val => encodePut key val
  | .delete key => encodeDelete key
  | .rangeDelete start stop => encodeRangeDelete start stop
  | .putTtl key val expireAt => encodePutTtl key val expireAt

/-- A TTL put without an expiry is a plain put. -/
def plain : Mutation → Mutation
  | .putTtl key val expireAt => if expireAt = 0 then .put key val else .putTtl key val expireAt
  | m => m

/-- The documented layouts: the op byte and the budgets of the two lengths. -/
def HeaderOk (p : Bytes) : Prop :=
  let op := p.getD 0 0
  let a := (p.getD 1 0).toNat
  let b := (p.getD 2 0).toNat
  (op = 1 ∧ 1 ≤ a ∧ a ≤ 29 ∧ a + b ≤ 29) ∨ (op = 2 ∧ 1 ≤ a ∧ a ≤ 29 ∧ b = 0) ∨
    (op = 3 ∧ 1 ≤ a ∧ 1 ≤ b ∧ a + b ≤ 29) ∨ (op = 4 ∧ 1 ≤ a ∧ 8 + a + b ≤ 29)

theorem pack_eq (op : Op) (a b : Nat) (body : Bytes) : pack op a b body =
    [op.toU8, UInt8.ofNat a, UInt8.ofNat b] ++ body ++ zeros (29 - body.length) := by
  have hhead : splice (zeros 32) 0 [op.toU8, UInt8.ofNat a, UInt8.ofNat b] =
      [op.toU8, UInt8.ofNat a, UInt8.ofNat b] ++ zeros 29 := rfl
  have hrest : ([op.toU8, UInt8.ofNat a, UInt8.ofNat b] ++ zeros 29).drop (3 + body.length) = zeros (29 - body.length) := by
    rw [← List.drop_drop]
    exact drop_zeros body.length 29
  rw [pack, hhead, splice, hrest]
  rfl

theorem fromU8_toU8 (op : Op) : Op.fromU8 op.toU8 = some op := by cases op <;> rfl

theorem toNat_ofNat {n : Nat} (h : n ≤ 29) : (UInt8.ofNat n).toNat = n := by
  rw [UInt8.toNat_ofNat', Nat.mod_eq_of_lt (lt_of_le_of_lt h (by decide))]

/-- A field behind `pre` bytes. -/
theorem field_append {pre f rest : Bytes} {off len : Nat} (ho : off = pre.length) (hl : len = f.length) :
    field (pre ++ (f ++ rest)) off len = f := by
  subst ho hl
  rw [field, List.drop_left, List.take_left]

/-- The header of a packed payload. -/
theorem header_pack (op : Op) (body : Bytes) {a b : Nat} (ha : a ≤ 29) (hb : b ≤ 29) :
    Op.fromU8 ((pack op a b body).getD 0 0) = some op ∧ ((pack op a b body).getD 1 0).toNat = a ∧
      ((pack op a b body).getD 2 0).toNat = b := by
  rw [pack_eq]
  exact ⟨fromU8_toU8 op, toNat_ofNat ha, toNat_ofNat hb⟩

theorem decode_encodePut {key val p : Bytes} (h : encodePut key val = some p) : decode p = .ok (.put key val) := by
  unfold encodePut at h
  split_ifs at h with h1 h2
  obtain rfl := Option.some.inj h
  obtain ⟨hop, ha, hb⟩ := header_pack .put (key ++ val) (by omega : key.length ≤ 29) (by omega : val.length ≤ 29)
  have hkey : field (pack .put key.length val.length (key ++ val)) 3 key.length = key := by
    rw [pack_eq, List.append_assoc, List.append_assoc]
    exact field_append rfl rfl
  have hval : field (pack .put key.length val.length (key ++ val)) (3 + key.length) val.length = val := by
    rw [pack_eq, List.append_assoc, List.append_assoc, ← List.append_assoc]
    exact field_append (by simp; omega) rfl
  unfold decode
  simp only [hop, ha, hb]
  rw [if_neg (by omega), if_neg (by omega), hkey, hval]

theorem decode_encodeDelete {key p : Bytes} (h : encodeDelete key = some p) : decode p = .ok (.delete key) := by
  unfold encodeDelete at h
  split_ifs at h with h1 h2
  obtain rfl := Option.some.inj h
  obtain ⟨hop, ha, hb⟩ := header_pack .delete key (by omega : key.length ≤ 29) (by omega : 0 ≤ 29)
  have hkey : field (pack .delete key.length 0 key) 3 key.length = key := by
    rw [pack_eq, List.append_assoc]
    exact field_append rfl rfl
  unfold decode
  simp only [hop, ha, hb]
  rw [if_neg (by omega), if_neg (by simp), hkey]

theorem decode_encodeRangeDelete {start stop p : Bytes} (h : encodeRangeDelete start stop = some p) :
    decode p = .ok (.rangeDelete start stop) := by
  unfold encodeRangeDelete at h
  split_ifs at h with h1 h2
  obtain rfl := Option.some.inj h
  obtain ⟨hop, ha, hb⟩ := header_pack .rangeDelete (start ++ stop) (by omega : start.length ≤ 29) (by omega : stop.length ≤ 29)
  have hstart : field (pack .rangeDelete start.length stop.length (start ++ stop)) 3 start.length = start := by
    rw [pack_eq, List.append_assoc, List.append_assoc]
    exact field_append rfl rfl
  have hstop : field (pack .rangeDelete start.length stop.length (start ++ stop)) (3 + start.length) stop.length = stop := by
    rw [pack_eq, List.append_assoc, List.append_assoc, ← List.append_assoc]
    exact field_append (by simp; omega) rfl
  unfold decode
  simp only [hop, ha, hb]
  rw [if_neg (by omega), if_neg (by omega), hstart, hstop]

theorem decode_encodePutTtl {key val p : Bytes} {expireAt : UInt64} (h : encodePutTtl key val expireAt = some p) :
    decode p = .ok (plain (.putTtl key val expireAt)) := by
  unfold encodePutTtl at h
  by_cases hzero : expireAt = 0
  · rw [if_pos hzero] at h
    rw [plain, if_pos hzero]
    exact decode_encodePut h
  rw [if_neg hzero] at h
  split_ifs at h with h1 h2
  obtain rfl := Option.some.inj h
  obtain ⟨hop, ha, hb⟩ := header_pack .putTtl (leBytes 8 expireAt.toNat ++ key ++ val)
    (by omega : key.length ≤ 29) (by omega : val.length ≤ 29)
  have hpack : pack .putTtl key.length val.length (leBytes 8 expireAt.toNat ++ key ++ val) =
      [Op.toU8 .putTtl, UInt8.ofNat key.length, UInt8.ofNat val.length] ++ (leBytes 8 expireAt.toNat ++ (key ++ (val ++
        zeros (29 - (leBytes 8 expireAt.toNat ++ key ++ val).length)))) := by
    rw [pack_eq]
    simp only [List.append_assoc]
  have hexpiry : field (pack .putTtl key.length val.length (leBytes 8 expireAt.toNat ++ key ++ val)) 3 8 =
      leBytes 8 expireAt.toNat := by
    rw [hpack]
    exact field_append rfl (by simp)
  have hkey : field (pack .putTtl key.length val.length (leBytes 8 expireAt.toNat ++ key ++ val)) 11 key.length = key := by
    rw [hpack, ← List.append_assoc]
    exact field_append (by simp) rfl
  have hval : field (pack .putTtl key.length val.length (leBytes 8 expireAt.toNat ++ key ++ val)) (11 + key.length)
      val.length = val := by
    rw [hpack, ← List.append_assoc, ← List.append_assoc]
    exact field_append (by simp; omega) rfl
  have hround : UInt64.ofNat (leNat (leBytes 8 expireAt.toNat)) = expireAt := by
    have hlt := expireAt.toNat_lt
    rw [leNat_leBytes_of_lt (by omega), UInt64.ofNat_toNat]
  unfold decode
  simp only [hop, ha, hb]
  rw [if_neg (by omega), if_neg (by omega), hexpiry, hkey, hval, hround, plain, if_neg hzero]

theorem decode_encode {m : Mutation} {p : Bytes} (h : encode m = some p) : decode p = .ok (plain m) := by
  cases m with
  | put key val => exact decode_encodePut h
  | delete key => exact decode_encodeDelete h
  | rangeDelete start stop => exact decode_encodeRangeDelete h
  | putTtl key val expireAt => exact decode_encodePutTtl h

theorem length_field {p : Bytes} {off len : Nat} (h : off + len ≤ p.length) : (field p off len).length = len := by
  rw [field, List.length_take, List.length_drop]
  omega

/-- The op bytes are the discriminants. -/
theorem fromU8_eq_some {byte : UInt8} {op : Op} (h : Op.fromU8 byte = some op) : byte = op.toU8 := by
  unfold Op.fromU8 at h
  split_ifs at h with h1 h2 h3 h4 <;> rw [← Option.some.inj h] <;> assumption

/-- What is accepted is within the budgets, and its mutation encodes again. -/
theorem decode_ok {p : Bytes} (hp : p.length = 32) {m : Mutation} (h : decode p = .ok m) :
    HeaderOk p ∧ ∃ p', encode m = some p' := by
  unfold decode at h
  dsimp only at h
  unfold HeaderOk
  dsimp only
  generalize (p.getD 1 0).toNat = a at h ⊢
  generalize (p.getD 2 0).toNat = b at h ⊢
  cases hop : Op.fromU8 (p.getD 0 0) with
  | none => rw [hop] at h; cases h
  | some op =>
    rw [fromU8_eq_some hop]
    rw [hop] at h
    cases op with
    | put =>
      dsimp only at h
      split_ifs at h with h1 h2
      obtain rfl := Except.ok.inj h
      have hkey := length_field (by omega : 3 + a ≤ p.length)
      have hval := length_field (by omega : 3 + a + b ≤ p.length)
      refine ⟨Or.inl ⟨rfl, by omega, by omega, by omega⟩, ?_⟩
      rw [encode, encodePut, hkey, hval, if_neg (by omega), if_neg (by omega)]
      exact ⟨_, rfl⟩
    | delete =>
      dsimp only at h
      split_ifs at h with h1 h2
      obtain rfl := Except.ok.inj h
      have hkey := length_field (by omega : 3 + a ≤ p.length)
      refine ⟨Or.inr (Or.inl ⟨rfl, by omega, by omega, not_not.mp h2⟩), ?_⟩
      rw [encode, encodeDelete, hkey, if_neg (by omega), if_neg (by omega)]
      exact ⟨_, rfl⟩
    | rangeDelete =>
      dsimp only at h
      split_ifs at h with h1 h2
      obtain rfl := Except.ok.inj h
      have hstart := length_field (by omega : 3 + a ≤ p.length)
      have hstop := length_field (by omega : 3 + a + b ≤ p.length)
      refine ⟨Or.inr (Or.inr (Or.inl ⟨rfl, by omega, by omega, by omega⟩)), ?_⟩
      rw [encode, encodeRangeDelete, hstart, hstop, if_neg (by omega), if_neg (by omega)]
      exact ⟨_, rfl⟩
    | putTtl =>
      dsimp only at h
      split_ifs at h with h1 h2
      obtain rfl := Except.ok.inj h
      have hkey := length_field (by omega : 11 + a ≤ p.length)
      have hval := length_field (by omega : 11 + a + b ≤ p.length)
      refine ⟨Or.inr (Or.inr (Or.inr ⟨rfl, by omega, by omega⟩)), ?_⟩
      rw [encode, encodePutTtl]
      split
      · rw [encodePut, hkey, hval, if_neg (by omega), if_neg (by omega)]
        exact ⟨_, rfl⟩
      · rw [hkey, hval, if_neg (by omega), if_neg (by omega)]
        exact ⟨_, rfl⟩

theorem decode_of_headerOk {p : Bytes} (h : HeaderOk p) : ∃ m, decode p = .ok m := by
  unfold HeaderOk at h
  unfold decode
  dsimp only at h ⊢
  generalize (p.getD 1 0).toNat = a at h ⊢
  generalize (p.getD 2 0).toNat = b at h ⊢
  rcases h with ⟨hop, h⟩ | ⟨hop, h⟩ | ⟨hop, h⟩ | ⟨hop, h⟩
  · have hput : Op.fromU8 (p.getD 0 0) = some .put := hop ▸ rfl
    simp only [hput]
    rw [if_neg (by omega), if_neg (by omega)]
    exact ⟨_, rfl⟩
  · have hdelete : Op.fromU8 (p.getD 0 0) = some .delete := hop ▸ rfl
    simp only [hdelete]
    rw [if_neg (by omega), if_neg (by omega)]
    exact ⟨_, rfl⟩
  · have hrange : Op.fromU8 (p.getD 0 0) = some .rangeDelete := hop ▸ rfl
    simp only [hrange]
    rw [if_neg (by omega), if_neg (by omega)]
    exact ⟨_, rfl⟩
  · have httl : Op.fromU8 (p.getD 0 0) = some .putTtl := hop ▸ rfl
    simp only [httl]
    rw [if_neg (by omega), if_neg (by omega)]
    exact ⟨_, rfl⟩

/-- The payload codec: what an encoder accepts comes back; exactly the payloads within the documented budgets decode; and
a decoded mutation encodes again, to a payload of the same mutation. -/
theorem payload_codec :
    (∀ m p, encode m = some p → decode p = .ok (plain m)) ∧
      ∀ p : Bytes, p.length = 32 → ((∃ m, decode p = .ok m) ↔ HeaderOk p) ∧
        ∀ m, decode p = .ok m → ∃ p', encode m = some p' ∧ decode p' = .ok (plain m) := by
  refine ⟨fun m p h => decode_encode h, fun p hp => ⟨⟨?_, decode_of_headerOk⟩, ?_⟩⟩
  · rintro ⟨m, hm⟩
    exact (decode_ok hp hm).1
  · intro m hm
    obtain ⟨p', hp'⟩ := (decode_ok hp hm).2
    exact ⟨p', hp', decode_encode hp'⟩

/-- A TTL put of the longest value; and a payload whose expiry is zero decodes, to be encoded as a plain put. -/
theorem payload_codec_ttl :
    decode (pack .putTtl 1 20 (leBytes 8 7 ++ [5] ++ List.replicate 20 9)) = .ok (.putTtl [5] (List.replicate 20 9) 7) ∧
      ∃ p', encode (.putTtl [5] [9] 0) = some p' ∧ decode p' = .ok (.put [5] [9]) :=
  ⟨payload_codec.1 (.putTtl [5] (List.replicate 20 9) 7) _ rfl,
    (payload_codec.2 (pack .putTtl 1 1 (leBytes 8 0 ++ [5] ++ [9])) (by decide)).2 (.putTtl [5] [9] 0) (by decide)⟩

end Horton.Drainer
