import Horton.Sstable.Seal
import Mathlib.Data.List.Induction

/-!
# What a table looks like

The content of the blocks of a table in terms of its entries: `logicalBody` is the body of a data block before
compression, `Holds` says that a block of the device is such a body, compressed or not.  The parsers are run on these
bytes: an entry is parsed back where it was put, and the padding behind the last one never parses as an entry.
-/

namespace Horton

open BlockDev

namespace Sstable

variable {sh : Shape}

/-- An entry that the fields of the format can hold. -/
structure Encodable (sh : Shape) (e : SstEntry) : Prop where
  key_ne : e.key ≠ []
  key_le : e.key.length ≤ sh.KEY_MAX
  val_le : (wireVal e).length ≤ U16_MAX
  seq_le : e.seq ≤ U64_MAX
  expire_le : e.expireAt ≤ U64_MAX

/-- An entry as a parser returns it. -/
def parsed (e : SstEntry) : ParsedEntry :=
  ⟨e.key, wireVal e, e.seq, entryOp e, if hasTtl e then e.expireAt else 0⟩

theorem length_encodeEntry (e : SstEntry) :
    (encodeEntry e).length = ENTRY_HEADER + e.key.length + (wireVal e).length + if hasTtl e then 8 else 0 := by
  unfold encodeEntry
  simp only [List.length_append, Bytes.length_leBytes, List.length_singleton, ENTRY_HEADER]
  split <;> simp

theorem encodeEntry_pos (e : SstEntry) : 13 ≤ (encodeEntry e).length := by
  rw [length_encodeEntry, ENTRY_HEADER]
  omega

theorem entrySizes_ok {e : SstEntry} {elen : Nat} (h : entrySizes e = .ok elen) :
    e.key ≠ [] ∧ e.key.length ≤ U16_MAX ∧ (wireVal e).length ≤ U16_MAX ∧ elen = (encodeEntry e).length := by
  unfold entrySizes at h
  split at h
  · cases h
  split at h
  · cases h
  split at h
  · cases h
  · rename_i h1 h2 h3
    rw [length_encodeEntry]
    refine ⟨fun hk => h1 (by simp [hk]), by omega, by omega, ?_⟩
    exact (Except.ok.inj h).symm

theorem entrySizes_of_encodable {e : SstEntry} (h : Encodable sh e) : entrySizes e = .ok (encodeEntry e).length := by
  have hk := sh.assertKey.2
  have hle := h.key_le
  have hv := h.val_le
  have hu : U16_MAX = 0xFFFF := rfl
  unfold entrySizes
  rw [if_neg (by simpa using h.key_ne), if_neg (by omega), if_neg (by omega), length_encodeEntry]

/-! ### Parsing an entry back -/

private theorem fromU8_toU8 (op : Op) : Op.fromU8 op.toU8 = some op := by cases op <;> rfl

/-- The expiry bytes of an entry. -/
private def expiry (e : SstEntry) : Bytes := if hasTtl e then Bytes.leBytes 8 e.expireAt else []

private theorem length_expiry (e : SstEntry) : (expiry e).length = if entryOp e = .putTtl then 8 else 0 := by
  unfold expiry entryOp hasTtl
  cases e.tombstone <;> by_cases h : e.expireAt = 0 <;> simp [h]

private theorem leNat_expiry {e : SstEntry} (h : e.expireAt ≤ U64_MAX) :
    Bytes.leNat (expiry e) = if hasTtl e then e.expireAt else 0 := by
  unfold expiry
  split
  · exact leNat_eight h
  · rfl

theorem dataEntryParse_append {e : SstEntry} (he : Encodable sh e) (pre post : Bytes) :
    dataEntryParse (pre ++ encodeEntry e ++ post) pre.length = some (parsed e, pre.length + (encodeEntry e).length) := by
  have hkey : e.key.length ≤ U16_MAX := he.key_le.trans sh.assertKey.2
  have hpos : e.key.length ≠ 0 := fun h => he.key_ne (List.length_eq_zero_iff.mp h)
  have hlen : (encodeEntry e).length = ENTRY_HEADER + e.key.length + (wireVal e).length + (expiry e).length := by
    rw [length_encodeEntry, expiry]
    split <;> simp
  have hexp := length_expiry e
  have hfields : pre ++ encodeEntry e ++ post = [pre, Bytes.leBytes 2 e.key.length, Bytes.leBytes 2 (wireVal e).length,
      Bytes.leBytes 8 e.seq, [(entryOp e).toU8], e.key, wireVal e, expiry e].flatten ++ post := by
    simp [encodeEntry, expiry]
  have h1 : Bytes.slice (pre ++ encodeEntry e ++ post) pre.length 2 = some (Bytes.leBytes 2 e.key.length) := by
    rw [hfields]; exact Bytes.slice_field _ 1 rfl (by simp) (by simp)
  have h2 : Bytes.slice (pre ++ encodeEntry e ++ post) (pre.length + 2) 2 =
      some (Bytes.leBytes 2 (wireVal e).length) := by
    rw [hfields]; exact Bytes.slice_field _ 2 rfl (by simp) (by simp)
  have h3 : Bytes.slice (pre ++ encodeEntry e ++ post) (pre.length + 4) 8 = some (Bytes.leBytes 8 e.seq) := by
    rw [hfields]; exact Bytes.slice_field _ 3 rfl (by simp) (by simp)
  have h4 : (pre ++ encodeEntry e ++ post)[pre.length + 12]? = some (entryOp e).toU8 := by
    apply Bytes.getElem?_of_slice
    rw [hfields]
    exact Bytes.slice_field _ 4 rfl (by simp) (by simp)
  have h5 : Bytes.slice (pre ++ encodeEntry e ++ post) (pre.length + ENTRY_HEADER) e.key.length = some e.key := by
    rw [hfields]; exact Bytes.slice_field _ 5 rfl (by simp [ENTRY_HEADER]) rfl
  have h6 : Bytes.slice (pre ++ encodeEntry e ++ post) (pre.length + ENTRY_HEADER + e.key.length) (wireVal e).length =
      some (wireVal e) := by
    rw [hfields]; exact Bytes.slice_field _ 6 rfl (by simp [ENTRY_HEADER]; omega) rfl
  have h7 : Bytes.slice (pre ++ encodeEntry e ++ post) (pre.length + ENTRY_HEADER + e.key.length + (wireVal e).length)
      (if entryOp e = .putTtl then 8 else 0) = some (expiry e) := by
    rw [hfields]; exact Bytes.slice_field _ 7 rfl (by simp [ENTRY_HEADER]; omega) hexp.symm
  simp only [dataEntryParse, h1, h2, h3, h4, Option.bind_eq_bind, Option.bind_some, if_neg hpos, fromU8_toU8,
    leNat_two hkey, leNat_two he.val_le, leNat_eight he.seq_le, h5, h6, h7, leNat_expiry he.expire_le]
  rw [hlen, parsed]
  congr 2
  omega

/-- Zero bytes never parse as an entry. -/
theorem dataEntryParse_zero {payload : Bytes} {off : Nat} (h : ∀ b ∈ (payload.drop off).take 2, b = 0) :
    dataEntryParse payload off = none := by
  unfold dataEntryParse
  cases hs : Bytes.slice payload off 2 with
  | none => rfl
  | some kl =>
    obtain ⟨-, rfl⟩ := Bytes.slice_eq_some hs
    simp [Bytes.leNat_of_zero h]

/-! ### A data block -/

/-- The entries of a block, one behind the other. -/
def encodeEntries (b : List SstEntry) : Bytes := b.flatMap encodeEntry

theorem encodeEntries_append (a b : List SstEntry) : encodeEntries (a ++ b) = encodeEntries a ++ encodeEntries b := by
  simp [encodeEntries]

theorem encodeEntries_cons (e : SstEntry) (b : List SstEntry) :
    encodeEntries (e :: b) = encodeEntry e ++ encodeEntries b := rfl

theorem length_le_encodeEntries (b : List SstEntry) : 13 * b.length ≤ (encodeEntries b).length := by
  induction b with
  | nil => simp
  | cons e b ih =>
    have := encodeEntry_pos e
    rw [encodeEntries_cons, List.length_append, List.length_cons]
    omega

/-- Where entry `i` of a block starts. -/
def offsetOf (b : List SstEntry) (i : Nat) : Nat := (encodeEntries (b.take i)).length

theorem offsetOf_succ {b : List SstEntry} {i : Nat} {e : SstEntry} (h : b[i]? = some e) :
    offsetOf b (i + 1) = offsetOf b i + (encodeEntry e).length := by
  obtain ⟨hi, rfl⟩ := List.getElem?_eq_some_iff.mp h
  rw [offsetOf, List.take_succ_eq_append_getElem hi, encodeEntries_append, List.length_append]
  simp [offsetOf, encodeEntries]

theorem offsetOf_length (b : List SstEntry) : offsetOf b b.length = (encodeEntries b).length := by
  rw [offsetOf, List.take_length]

/-- The restart offsets of entries that follow `n` others in `off` bytes. -/
def restartsFrom (n off : Nat) : List SstEntry → List Nat
  | [] => []
  | e :: es =>
    (if n % RESTART_INTERVAL = 0 then [off] else []) ++ restartsFrom (n + 1) (off + (encodeEntry e).length) es

def restartsOf (b : List SstEntry) : List Nat := restartsFrom 0 0 b

theorem restartsFrom_append (n off : Nat) (a b : List SstEntry) :
    restartsFrom n off (a ++ b) =
      restartsFrom n off a ++ restartsFrom (n + a.length) (off + (encodeEntries a).length) b := by
  induction a generalizing n off with
  | nil => rfl
  | cons e a ih =>
    simp only [List.cons_append, restartsFrom, ih, encodeEntries_cons, List.length_append, List.length_cons,
      List.append_assoc, Nat.add_assoc, Nat.add_comm 1]

/-- One more entry. -/
theorem restartsOf_concat (b : List SstEntry) (e : SstEntry) :
    restartsOf (b ++ [e]) =
      if b.length % RESTART_INTERVAL = 0 then restartsOf b ++ [(encodeEntries b).length] else restartsOf b := by
  rw [restartsOf, restartsFrom_append]
  simp only [restartsFrom, Nat.zero_add, List.append_nil]
  split <;> simp [restartsOf]

theorem length_restartsOf (b : List SstEntry) : (restartsOf b).length = (b.length + 15) / 16 := by
  induction b using List.reverseRecOn with
  | nil => rfl
  | append_singleton b e ih =>
    rw [restartsOf_concat, RESTART_INTERVAL]
    split
    · rw [List.length_append, ih, List.length_append]
      simp
      omega
    · rw [ih, List.length_append]
      simp
      omega

/-- Restart point `i` is entry `16 * i`. -/
theorem getElem?_restartsOf {b : List SstEntry} {i : Nat} (h : 16 * i < b.length) :
    (restartsOf b)[i]? = some (offsetOf b (16 * i)) := by
  induction b using List.reverseRecOn with
  | nil => simp at h
  | append_singleton b e ih =>
    have hlen := length_restartsOf b
    have hl : (b ++ [e]).length = b.length + 1 := by simp
    have hoff : offsetOf (b ++ [e]) (16 * i) = offsetOf b (16 * i) := by
      rw [offsetOf, offsetOf, List.take_append_of_le_length (by omega)]
    rw [restartsOf_concat, RESTART_INTERVAL, hoff]
    by_cases hi : 16 * i < b.length
    · have hget := ih hi
      split
      · rw [List.getElem?_append_left (by omega)]
        exact hget
      · exact hget
    · have heq : 16 * i = b.length := by omega
      rw [if_pos (by omega), heq, offsetOf_length, show i = (restartsOf b).length by omega]
      simp

/-- The bytes of a data block before its checksum: the entries, zeros, the restart offsets and their number. -/
def logicalBody (sh : Shape) (b : List SstEntry) : Bytes :=
  encodeEntries b ++ Bytes.zeros (bodyEnd sh - ((restartsOf b).length * 2 + 2) - (encodeEntries b).length) ++
    (restartsOf b).flatMap (Bytes.leBytes 2) ++ Bytes.leBytes 2 (restartsOf b).length

/-- A block that the writer can have filled. -/
structure BlockOk (sh : Shape) (b : List SstEntry) : Prop where
  ne_nil : b ≠ []
  room : (encodeEntries b).length + ((b.length + 15) / 16 * 2 + 6) ≤ sh.BLOCK
  count_le : b.length ≤ MAX_ENTRIES_PER_BLOCK
  restart_le : ∀ r ∈ restartsOf b, r ≤ U16_MAX
  encodable : ∀ e ∈ b, Encodable sh e

/-- Where the restart offsets of a block start. -/
def rstartOf (sh : Shape) (b : List SstEntry) : Nat := bodyEnd sh - ((restartsOf b).length * 2 + 2)

namespace BlockOk

variable {b : List SstEntry}

theorem length_le (hb : BlockOk sh b) :
    (encodeEntries b).length ≤ rstartOf sh b ∧ rstartOf sh b + ((restartsOf b).length * 2 + 2) = bodyEnd sh := by
  have hroom := hb.room
  have hlen := length_restartsOf b
  unfold rstartOf bodyEnd CRC_LEN
  omega

theorem length_logicalBody (hb : BlockOk sh b) : (logicalBody sh b).length = bodyEnd sh := by
  obtain ⟨h1, h2⟩ := hb.length_le
  have hflat : ((restartsOf b).flatMap (Bytes.leBytes 2)).length = (restartsOf b).length * 2 := by
    rw [List.length_flatMap]
    simp [Nat.mul_comm]
  simp only [logicalBody, List.length_append, Bytes.length_leBytes, Bytes.length_zeros, hflat]
  unfold rstartOf at h1 h2
  omega

/-- The last two bytes give the number of restart points. -/
theorem drop_logicalBody (hb : BlockOk sh b) :
    (logicalBody sh b).drop (bodyEnd sh - 2) = Bytes.leBytes 2 (restartsOf b).length := by
  have hlen := hb.length_logicalBody
  rw [logicalBody] at hlen ⊢
  rw [List.length_append, Bytes.length_leBytes] at hlen
  exact List.drop_left' (by omega)

theorem restarts_le (hb : BlockOk sh b) : (restartsOf b).length ≤ 128 := by
  have hcount := hb.count_le
  have hmax : MAX_ENTRIES_PER_BLOCK = 2048 := rfl
  rw [length_restartsOf]
  omega

end BlockOk

/-- `payload` starts with the entries `b`, and zeros follow up to `rstart`. -/
structure Entries (payload : Bytes) (b : List SstEntry) (rstart : Nat) : Prop where
  entry : ∀ i e, b[i]? = some e → dataEntryParse payload (offsetOf b i) = some (parsed e, offsetOf b (i + 1))
  stop : (encodeEntries b).length < rstart → dataEntryParse payload (encodeEntries b).length = none
  padding : Bytes.allZero ((payload.drop (encodeEntries b).length).take (rstart - (encodeEntries b).length)) = true
  length_le : (encodeEntries b).length ≤ rstart

theorem dataEntryParse_entries {b : List SstEntry} (hb : ∀ e ∈ b, Encodable sh e) (post : Bytes) {i : Nat} {e : SstEntry}
    (h : b[i]? = some e) :
    dataEntryParse (encodeEntries b ++ post) (offsetOf b i) = some (parsed e, offsetOf b (i + 1)) := by
  obtain ⟨hi, he⟩ := List.getElem?_eq_some_iff.mp h
  have hsplit : encodeEntries b = encodeEntries (b.take i) ++ encodeEntry e ++ encodeEntries (b.drop (i + 1)) := by
    conv => lhs; rw [← List.take_append_drop i b, List.drop_eq_getElem_cons hi, he]
    rw [encodeEntries_append, encodeEntries_cons, List.append_assoc]
  have hparse := dataEntryParse_append (hb e (List.mem_of_getElem? h)) (encodeEntries (b.take i))
    (encodeEntries (b.drop (i + 1)) ++ post)
  rw [offsetOf_succ h, hsplit, List.append_assoc _ (encodeEntries (b.drop (i + 1)))]
  exact hparse

/-- The whole body: behind the padding stands the first restart offset, which is zero. -/
theorem BlockOk.entries {b : List SstEntry} (hb : BlockOk sh b) : Entries (logicalBody sh b) b (rstartOf sh b) := by
  obtain ⟨hle, -⟩ := hb.length_le
  have hdrop : (logicalBody sh b).drop (encodeEntries b).length =
      Bytes.zeros (rstartOf sh b - (encodeEntries b).length) ++ ((restartsOf b).flatMap (Bytes.leBytes 2) ++
        Bytes.leBytes 2 (restartsOf b).length) := by
    rw [logicalBody, rstartOf, List.append_assoc, List.append_assoc, List.drop_left]
  have hhead : ∃ l, (restartsOf b).flatMap (Bytes.leBytes 2) = 0 :: l := by
    obtain ⟨e, b', rfl⟩ := List.exists_cons_of_ne_nil hb.ne_nil
    exact ⟨_, rfl⟩
  obtain ⟨l, hl⟩ := hhead
  refine ⟨fun i e h => ?_, fun hlt => ?_, ?_, hle⟩
  · rw [logicalBody, List.append_assoc, List.append_assoc]
    exact dataEntryParse_entries hb.encodable _ h
  · apply dataEntryParse_zero
    rw [hdrop, hl]
    obtain ⟨n, hn⟩ : ∃ n, rstartOf sh b - (encodeEntries b).length = n + 1 := ⟨_, (Nat.succ_pred (by omega)).symm⟩
    rw [hn, Bytes.zeros, List.replicate_succ]
    intro x hx
    cases n <;> simp [List.replicate_succ] at hx <;> tauto
  · rw [hdrop, List.take_left' (by simp)]
    simp

/-- The part before the restart offsets, which is what a cursor parses. -/
theorem BlockOk.entries_take {b : List SstEntry} (hb : BlockOk sh b) :
    Entries ((logicalBody sh b).take (rstartOf sh b)) b (rstartOf sh b) := by
  obtain ⟨hle, -⟩ := hb.length_le
  have htake : (logicalBody sh b).take (rstartOf sh b) =
      encodeEntries b ++ Bytes.zeros (rstartOf sh b - (encodeEntries b).length) := by
    rw [logicalBody, List.append_assoc]
    refine List.take_left' ?_
    rw [List.length_append, Bytes.length_zeros, ← rstartOf]
    omega
  rw [htake]
  refine ⟨fun i e h => dataEntryParse_entries hb.encodable _ h, fun _ => ?_, ?_, hle⟩
  · apply dataEntryParse_zero
    rw [List.drop_left]
    intro x hx
    exact List.eq_of_mem_replicate (List.mem_of_mem_take hx)
  · rw [List.drop_left, List.take_of_length_le (by simp)]
    simp

theorem offsetOf_lt {b : List SstEntry} {i : Nat} (h : i < b.length) : offsetOf b i < (encodeEntries b).length := by
  have hsucc := offsetOf_succ (List.getElem?_eq_getElem h)
  have hpos := encodeEntry_pos b[i]
  have hle : offsetOf b (i + 1) ≤ (encodeEntries b).length := by
    conv => rhs; rw [← List.take_append_drop (i + 1) b, encodeEntries_append, List.length_append]
    rw [offsetOf]
    omega
  omega

theorem BlockOk.restartAt {b : List SstEntry} (hb : BlockOk sh b) {i : Nat} (hi : 16 * i < b.length) :
    restartAt (logicalBody sh b) (rstartOf sh b) i = some (offsetOf b (16 * i)) := by
  obtain ⟨hle, htail⟩ := hb.length_le
  have hget := getElem?_restartsOf hi
  have hlt := offsetOf_lt hi
  have hr := hb.restart_le _ (List.mem_of_getElem? hget)
  have hlen : i < (restartsOf b).length := (List.getElem?_eq_some_iff.mp hget).1
  have hslice : Bytes.slice (logicalBody sh b) (rstartOf sh b + i * 2) 2 =
      some (Bytes.leBytes 2 (offsetOf b (16 * i))) := by
    have hfields : logicalBody sh b = ((encodeEntries b ++ Bytes.zeros (rstartOf sh b - (encodeEntries b).length)) ::
        (restartsOf b).map (Bytes.leBytes 2)).flatten ++ Bytes.leBytes 2 (restartsOf b).length := by
      rw [logicalBody, List.flatten_cons, ← List.flatMap_def]
      rfl
    rw [hfields]
    refine Bytes.slice_field _ (i + 1) (by simp [hget]) ?_ (by simp)
    rw [List.take_succ_cons, List.map_cons, List.sum_cons, ← List.map_take, List.map_map]
    have hmap : ((restartsOf b).take i).map (List.length ∘ Bytes.leBytes 2) = List.replicate i 2 := by
      rw [List.eq_replicate_iff]
      refine ⟨by simp; omega, fun x hx => ?_⟩
      obtain ⟨r, -, rfl⟩ := List.mem_map.mp hx
      exact Bytes.length_leBytes 2 r
    rw [hmap, List.length_append, Bytes.length_zeros, List.sum_replicate_nat]
    omega
  rw [Sstable.restartAt, hslice]
  simp only [Option.bind_eq_bind, Option.bind_some, leNat_two hr]
  rw [if_neg (by omega)]

/-! ### Reading a block back -/

/-- The device block holds the entries `b`, compressed or as they are. -/
def Holds (sh : Shape) (raw : Bytes) (b : List SstEntry) : Prop :=
  raw = withCrc (logicalBody sh b) ∨
    ∃ c, compress sh.BLOCK (logicalBody sh b) = some c ∧ raw = withCrc (flagCompressed sh c)

theorem Holds.readDataBlock {blocks : Nat → Bytes} {id : Nat} {b : List SstEntry} (h : Holds sh (blocks id) b)
    (hb : BlockOk sh b) : (readDataBlock sh id).eval blocks = .ok (logicalBody sh b) := by
  have hlen := hb.length_logicalBody
  rcases h with hraw | ⟨c, hc, hraw⟩
  · have hcrc : checkBlockCrc sh (blocks id) id = .ok () := by rw [hraw, checkBlockCrc_withCrc hlen]
    have hinflate : inflateDataBlock sh (blocks id) id = .ok none := by
      rw [hraw]
      exact inflate_plain hb.restarts_le rfl hlen id
    simp only [Sstable.readDataBlock, Reads.eval_bind, Reads.eval_block, Reads.eval_ofExcept, Except.bind, hcrc, hinflate]
    rw [hraw]
    simp [take_withCrc hlen]
  · have hcrc : checkBlockCrc sh (blocks id) id = .ok () := by rw [hraw, checkBlockCrc_withCrc (length_flagCompressed hc)]
    have hinflate : inflateDataBlock sh (blocks id) id = .ok (some (logicalBody sh b)) := by
      rw [hraw]
      exact inflate_flagged hc id
    simp only [Sstable.readDataBlock, Reads.eval_bind, Reads.eval_block, Reads.eval_ofExcept, Except.bind, hcrc, hinflate]
    simp

/-! ### The index -/

/-- The key that a block is indexed under. -/
def firstKeyOf (b : List SstEntry) : Bytes := (b.head?.map (·.key)).getD []

def maxSeqOf (b : List SstEntry) : Nat := b.foldl (fun m e => max m e.seq) 0

/-- The index of data blocks from `id` on. -/
def indexFrom (id : Nat) : List (List SstEntry) → Bytes
  | [] => []
  | b :: bs => encodeIndexEntry (firstKeyOf b) id (maxSeqOf b) ++ indexFrom (id + 1) bs

theorem length_encodeIndexEntry (key : Bytes) (id maxSeq : Nat) :
    (encodeIndexEntry key id maxSeq).length = key.length + 18 := by
  simp [encodeIndexEntry]
  omega

theorem indexFrom_append (id : Nat) (a b : List (List SstEntry)) :
    indexFrom id (a ++ b) = indexFrom id a ++ indexFrom (id + a.length) b := by
  induction a generalizing id with
  | nil => rfl
  | cons x a ih =>
    rw [List.cons_append, indexFrom, indexFrom, ih, List.append_assoc, List.length_cons]
    congr 3
    omega

theorem length_le_indexFrom (id : Nat) (bs : List (List SstEntry)) : 18 * bs.length ≤ (indexFrom id bs).length := by
  induction bs generalizing id with
  | nil => simp
  | cons b bs ih =>
    have := ih (id + 1)
    rw [indexFrom, List.length_append, length_encodeIndexEntry, List.length_cons]
    omega

theorem firstKeyOf_mem {b : List SstEntry} (h : b ≠ []) : ∃ e ∈ b, b.head? = some e ∧ firstKeyOf b = e.key := by
  obtain ⟨e, l, rfl⟩ := List.exists_cons_of_ne_nil h
  exact ⟨e, by simp, rfl, rfl⟩

theorem BlockOk.firstKey {b : List SstEntry} (hb : BlockOk sh b) : firstKeyOf b ≠ [] ∧ (firstKeyOf b).length ≤ U16_MAX := by
  obtain ⟨e, he, -, hkey⟩ := firstKeyOf_mem hb.ne_nil
  have henc := hb.encodable e he
  rw [hkey]
  exact ⟨henc.key_ne, henc.key_le.trans sh.assertKey.2⟩

theorem indexEntryParse_append {key : Bytes} {id : Nat} (hne : key ≠ []) (hkey : key.length ≤ U16_MAX) (hid : id ≤ U64_MAX)
    (maxSeq : Nat) (pre post : Bytes) :
    indexEntryParse (pre ++ encodeIndexEntry key id maxSeq ++ post) pre.length =
      some (key, id, pre.length + (key.length + 18)) := by
  have hpos : key.length ≠ 0 := fun h => hne (List.length_eq_zero_iff.mp h)
  have hfields : pre ++ encodeIndexEntry key id maxSeq ++ post = [pre, Bytes.leBytes 2 key.length, key,
      Bytes.leBytes 8 id, Bytes.leBytes 8 maxSeq].flatten ++ post := by simp [encodeIndexEntry]
  have h1 : Bytes.slice (pre ++ encodeIndexEntry key id maxSeq ++ post) pre.length 2 =
      some (Bytes.leBytes 2 key.length) := by
    rw [hfields]; exact Bytes.slice_field _ 1 rfl (by simp) (by simp)
  have h2 : Bytes.slice (pre ++ encodeIndexEntry key id maxSeq ++ post) (pre.length + 2) key.length = some key := by
    rw [hfields]; exact Bytes.slice_field _ 2 rfl (by simp) rfl
  have h3 : Bytes.slice (pre ++ encodeIndexEntry key id maxSeq ++ post) (pre.length + 2 + key.length) 8 =
      some (Bytes.leBytes 8 id) := by
    rw [hfields]; exact Bytes.slice_field _ 3 rfl (by simp; omega) (by simp)
  have hlen : ¬ pre.length + 2 + key.length + 16 > (pre ++ encodeIndexEntry key id maxSeq ++ post).length := by
    simp only [List.length_append, length_encodeIndexEntry]
    omega
  simp only [indexEntryParse, h1, h2, h3, Option.bind_eq_bind, Option.bind_some, leNat_two hkey, leNat_eight hid,
    if_neg hpos, if_neg hlen]
  congr 3
  omega

theorem indexEntryParse_zero {payload : Bytes} {off : Nat} (h : Bytes.allZero (payload.drop off) = true) :
    indexEntryParse payload off = none := by
  unfold indexEntryParse
  cases hs : Bytes.slice payload off 2 with
  | none => rfl
  | some kl =>
    obtain ⟨-, rfl⟩ := Bytes.slice_eq_some hs
    have hz : Bytes.leNat ((payload.drop off).take 2) = 0 := by
      rw [Bytes.allZero_iff] at h
      rw [h]
      exact Bytes.leNat_of_zero fun x hx => List.eq_of_mem_replicate (List.mem_of_mem_take hx)
    simp [hz]

end Sstable

end Horton
