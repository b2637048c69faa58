import Horton.MemTable.Checked
import Horton.Wal.Replay

/-!
# What a memtable can hold

Every insert checks the sizes of its key and value and the capacity, and every record was inside a block of the log.  So
the entries of a memtable fit the table format (`Entry.Ok`), and their number and bytes are bounded (`MemTable.Bounded`).
A flush of such a memtable is planned without an error and in at most `maxFlushBlocks` blocks (`MemTable.Bounded.blocks_le`).
-/

namespace Horton

open BlockDev Sstable

variable {sh : Shape}

/-- An entry that fits the table format. -/
structure Entry.Ok (sh : Shape) (e : Entry) : Prop where
  key_ne : e.key ≠ []
  key_le : e.key.length ≤ sh.KEY_MAX
  seq_lt : e.seq < 2 ^ 64
  expire_lt : e.expireAt < 2 ^ 64
  val_le : e.rangeDel = false → e.val.length ≤ sh.VAL_MAX
  stop : e.rangeDel = true → e.val ≠ [] ∧ e.val.length ≤ sh.KEY_MAX
  block : e.rangeDel = false → (encodeEntry (.ofEntry e)).length + 8 ≤ sh.BLOCK

namespace MemTable

structure Bounded (sh : Shape) (t : MemTable) : Prop where
  intact : t.Intact
  len_le : t.len ≤ sh.CAP
  arena_le : t.arena.length ≤ sh.ARENA
  bytes : entryBytes t.iter ≤ t.arena.length
  entry : ∀ e ∈ t.iter, e.Ok sh

theorem bounded_new (sh : Shape) : new.Bounded sh :=
  ⟨intact_new, Nat.zero_le _, Nat.zero_le _, Nat.zero_le _, by simp [iter, new]⟩

theorem bounded_clear (t : MemTable) : t.clear.Bounded sh :=
  ⟨intact_clear t, Nat.zero_le _, Nat.zero_le _, Nat.zero_le _, by simp [iter, clear]⟩

variable {t t' : MemTable} {r : Record}

theorem Bounded.checked (h : t.Bounded sh) : t.Checked sh := by
  refine ⟨h.intact, h.len_le, h.arena_le, h.bytes, fun e he => ?_⟩
  have hok := h.entry e he
  exact ⟨hok.key_le, hok.val_le, fun hdel => (hok.stop hdel).2⟩

theorem plan_val_le {p : Plan} {key val : Bytes} (h : t.plan sh key val false = .ok p) : val.length ≤ sh.VAL_MAX :=
  plan_len_le h

/-- A replayed record took a slot and its bytes of the arena, and its entry passed the size checks. -/
private theorem replayRecord_spec (h : WalWriter.replayRecord sh t r = .ok t') : ∃ p valLen tombstone rangeDel expireAt,
    Planned sh t p r.key valLen ∧ valLen ≤ r.val.length ∧ valLen = r.entry.val.length ∧
      t' = t.apply p r.key r.val r.seq tombstone rangeDel expireAt ∧ r.key ≠ [] ∧ r.key.length ≤ sh.KEY_MAX ∧
      (rangeDel = true ↔ r.op = .rangeDelete) ∧ (r.op ≠ .rangeDelete → r.entry.val.length ≤ sh.VAL_MAX) ∧
      (r.op = .rangeDelete → r.val ≠ [] ∧ r.val.length ≤ sh.KEY_MAX) := by
  unfold WalWriter.replayRecord at h
  cases hop : r.op with
  | put =>
    rw [hop] at h
    obtain ⟨p, hp, rfl⟩ := planned_of_ok h
    obtain ⟨hplan, hne, hle⟩ := plan_ok hp
    have hval : r.entry.val = r.val := by simp [Record.entry, hop]
    exact ⟨p, _, false, false, 0, hplan, by simp, by simp [hval], rfl, hne, hle, by simp,
      fun _ => by rw [hval]; exact plan_val_le hp, fun hc => by cases hc⟩
  | putTtl =>
    rw [hop] at h
    obtain ⟨p, hp, rfl⟩ := planned_of_ok h
    obtain ⟨hplan, hne, hle⟩ := plan_ok hp
    have hval : r.entry.val = r.val := by simp [Record.entry, hop]
    exact ⟨p, _, false, false, r.expireAt, hplan, by simp, by simp [hval], rfl, hne, hle, by simp,
      fun _ => by rw [hval]; exact plan_val_le hp, fun hc => by cases hc⟩
  | delete =>
    rw [hop] at h
    obtain ⟨p, hp, rfl⟩ := planned_of_ok h
    obtain ⟨hplan, hne, hle⟩ := plan_ok hp
    have hval : r.entry.val = [] := by simp [Record.entry, hop]
    exact ⟨p, _, true, false, 0, hplan, by simp, by simp [hval], rfl, hne, hle, by simp, fun _ => by simp [hval],
      fun hc => by cases hc⟩
  | rangeDelete =>
    rw [hop] at h
    obtain ⟨p, hp, rfl⟩ := planned_of_ok h
    obtain ⟨hplan, hlt, hne, hle, hle'⟩ := planRangeDel_ok hp
    have hval : r.entry.val = r.val := by simp [Record.entry, hop]
    refine ⟨p, _, true, true, 0, hplan, le_rfl, by rw [hval], rfl, hne, hle, by simp, fun hc => absurd rfl hc,
      fun _ => ⟨?_, hle'⟩⟩
    intro hc
    rw [hc] at hlt
    exact absurd hlt (List.not_lt_nil _)

/-- The entry of a record from a block of the log takes no more bytes of a table than the record took. -/
private theorem length_encodeEntry_entry (hr : r.op ≠ .rangeDelete) :
    (encodeEntry (.ofEntry r.entry)).length + 8 ≤ r.len := by
  rw [length_encodeEntry, Record.len, r.length_extra]
  have hover : WAL_RECORD_OVERHEAD = 23 := rfl
  have hhead : ENTRY_HEADER = 13 := rfl
  cases hop : r.op with
  | put => simp [Record.entry, SstEntry.ofEntry, wireVal, hasTtl, hop]; omega
  | delete => simp [Record.entry, SstEntry.ofEntry, wireVal, hasTtl, hop]; omega
  | putTtl =>
    by_cases hexp : r.expireAt = 0 <;> simp [Record.entry, SstEntry.ofEntry, wireVal, hasTtl, hop, hexp] <;> omega
  | rangeDelete => exact absurd hop hr

/-- What a replay of a record from a block of the log keeps. -/
theorem bounded_replayRecord (ht : t.Bounded sh) (hwf : r.WF) (hlen : r.len ≤ sh.BLOCK)
    (h : WalWriter.replayRecord sh t r = .ok t') : t'.Bounded sh := by
  obtain ⟨-, hiter⟩ := iter_replayRecord ht.intact h
  obtain ⟨p, valLen, tombstone, rangeDel, expireAt, hplan, hle, hval, rfl, hne, hkey, hdel, hpoint, hrange⟩ :=
    replayRecord_spec h
  have hrangeDel : r.entry.rangeDel = true ↔ r.op = .rangeDelete := by
    unfold Record.entry
    cases r.op <;> simp
  have hpointOp : ∀ {b : Bool}, (b = true ↔ r.op = .rangeDelete) → b = false → r.op ≠ .rangeDelete := by
    intro b hb hf hc
    rw [hb.mpr hc] at hf
    cases hf
  have hvalStop : r.op = .rangeDelete → valLen ≤ sh.KEY_MAX := fun hop => hle.trans (hrange hop).2
  have hc := checked_apply ht.checked hplan hle hkey (fun hf => hval.trans_le (hpoint (hpointOp hdel hf)))
    (fun hf => hvalStop (hdel.mp hf)) r.seq tombstone expireAt
  refine ⟨hc.intact, hc.len_le, hc.arena_le, hc.bytes, fun e he => ?_⟩
  rw [hiter] at he
  rcases List.mem_append.mp he with he | he
  · exact ht.entry e (List.mem_of_mem_take he)
  rcases List.mem_cons.mp he with rfl | he
  · have hentryKey : r.entry.key = r.key := by
      unfold Record.entry
      cases r.op <;> rfl
    have hentrySeq : r.entry.seq = r.seq := by
      unfold Record.entry
      cases r.op <;> rfl
    refine ⟨hentryKey ▸ hne, hentryKey ▸ hkey, hentrySeq ▸ hwf.seq_lt, ?_, fun hf => hpoint (hpointOp hrangeDel hf),
      fun hf => ?_, fun hf => ?_⟩
    · have hexp := hwf.expire_lt
      unfold Record.entry
      cases r.op <;> simp only [] <;> omega
    · have hop := hrangeDel.mp hf
      have hstop : r.entry.val = r.val := by simp [Record.entry, hop]
      rw [hstop]
      exact hrange hop
    · exact (length_encodeEntry_entry (hpointOp hrangeDel hf)).trans hlen
  · exact ht.entry e (List.mem_of_mem_drop he)

theorem bounded_replayAll {rs : List Record} (ht : t.Bounded sh) (hrs : ∀ r ∈ rs, r.WF ∧ r.len ≤ sh.BLOCK)
    (h : replayAll sh t rs = .ok t') : t'.Bounded sh := by
  induction rs generalizing t with
  | nil =>
    obtain rfl := Except.ok.inj h
    exact ht
  | cons r rs ih =>
    rw [replayAll, List.foldlM_cons] at h
    cases hr : WalWriter.replayRecord sh t r with
    | error e => rw [hr] at h; cases h
    | ok t₁ =>
      rw [hr] at h
      obtain ⟨hwf, hlen⟩ := hrs r (by simp)
      exact ih (bounded_replayRecord ht hwf hlen hr) (fun x hx => hrs x (by simp [hx])) h

/-! ### The two sections of its table -/

namespace Bounded

theorem point_mem (h : t.Bounded sh) {e : SstEntry} (he : e ∈ t.points) :
    ∃ x : Entry, x.Ok sh ∧ x.rangeDel = false ∧ e = .ofEntry x := by
  obtain ⟨x, hx, rfl⟩ := List.mem_map.mp he
  obtain ⟨hmem, hr⟩ := List.mem_filter.mp hx
  exact ⟨x, h.entry x hmem, by simpa using hr, rfl⟩

theorem rdel_mem (h : t.Bounded sh) {r : RdelEntry} (hr : r ∈ t.rdels) :
    ∃ x : Entry, x.Ok sh ∧ x.rangeDel = true ∧ r = ⟨x.key, x.val, x.seq⟩ := by
  obtain ⟨x, hx, hsome⟩ := List.mem_filterMap.mp hr
  split at hsome
  · rename_i hdel
    exact ⟨x, h.entry x hx, hdel, (Option.some.inj hsome).symm⟩
  · cases hsome

theorem encodable (h : t.Bounded sh) : ∀ e ∈ t.points, Encodable sh e ∧ fitsBlock sh [] e = true := by
  intro e he
  obtain ⟨x, hx, hr, rfl⟩ := h.point_mem he
  have hval := hx.val_le hr
  have hu : U16_MAX = 0xFFFF := rfl
  have hw : U64_MAX = 2 ^ 64 - 1 := rfl
  have hv := sh.assertVal
  have hseq := hx.seq_lt
  have hexp := hx.expire_lt
  have hwire : (wireVal (.ofEntry x)).length ≤ x.val.length := by
    unfold wireVal SstEntry.ofEntry
    split <;> simp
  refine ⟨⟨hx.key_ne, hx.key_le, by omega, by show x.seq ≤ U64_MAX; omega, by show x.expireAt ≤ U64_MAX; omega⟩, ?_⟩
  have hblock := hx.block hr
  rw [fitsBlock_iff]
  simp only [encodeEntries, List.flatMap_nil, List.length_nil, MAX_ENTRIES_PER_BLOCK, RESTART_INTERVAL]
  omega

theorem inRange (h : t.Bounded sh) : ∀ e ∈ t.points, TableWriter.InRange e := by
  intro e he
  have henc := (h.encodable e he).1
  exact ⟨henc.seq_le, henc.expire_le⟩

theorem rdelOk (h : t.Bounded sh) : ∀ r ∈ t.rdels, RdelOk sh r := h.checked.rdelOk

theorem bytes_le (h : t.Bounded sh) : pointBytes t.points + rdelBytes t.rdels ≤ sh.ARENA := h.checked.bytes_le

/-- A flush never takes more blocks than every slot has. -/
theorem blocks_le (h : t.Bounded sh) :
    (rdelBins sh t.rdels).length + (dataBins sh t.points).length + 3 ≤ maxFlushBlocks sh :=
  h.checked.blocks_le fun e he => (h.encodable e he).2

theorem entryCount_le (h : t.Bounded sh) : t.points.length ≤ U32_MAX := by
  have hlen := length_le_pointBytes fun e he => (h.encodable e he).1.key_ne
  have hbytes := h.bytes_le
  have harena := sh.assertArenaFits
  omega

/-- The number of blocks fits its field: where all points are short two of them share a block, and a long one takes arena
bytes that no other entry has. -/
theorem total_le (h : t.Bounded sh) : (rdelBins sh t.rdels).length + (dataBins sh t.points).length + 3 ≤ U32_MAX := by
  have hbytes := h.bytes_le
  have harena := sh.assertArenaFits
  have hu : U32_MAX = 0xFFFFFFFF := rfl
  have hr : 2 * t.rdels.length ≤ rdelBytes t.rdels := by
    refine two_mul_length_le_rdelBytes fun r hr => ?_
    obtain ⟨x, hx, hdel, rfl⟩ := h.rdel_mem hr
    exact ⟨hx.key_ne, (hx.stop hdel).1⟩
  have hrbins : (rdelBins sh t.rdels).length ≤ t.rdels.length := Packing.length_bins_le fun r hr => (h.rdelOk r hr).fits_nil
  have hkeys : ∀ e ∈ t.points, e.key ≠ [] := fun e he => (h.encodable e he).1.key_ne
  have hp := length_le_pointBytes hkeys
  by_cases hshort : ∀ e ∈ t.points, e.key.length + e.val.length ≤ 100
  · have htwo : ∀ a ∈ t.points, ∀ b ∈ t.points, fitsBlock sh [a] b = true := by
      intro a ha b hb
      have hmin := sh.assertMin
      have h1 := length_encodeEntries_le [a]
      have h2 := length_encodeEntries_le [b]
      have h3 := hshort a ha
      have h4 := hshort b hb
      simp only [pointBytes, List.map_cons, List.map_nil, List.sum_cons, List.sum_nil, List.length_singleton] at h1 h2
      have hone : (encodeEntry b).length = (encodeEntries [b]).length := by simp [encodeEntries]
      rw [fitsBlock_iff, hone, List.length_singleton]
      refine ⟨by decide, ?_⟩
      omega
    have hclosed := Packing.two_mul_length_closed_le (fun e he => (h.encodable e he).2) htwo
    have hflat : ((Packing.pack (fitsBlock sh) t.points).closed.flatten ++
      (Packing.pack (fitsBlock sh) t.points).current).length = t.points.length := by rw [Packing.flatten_pack]
    rw [List.length_append] at hflat
    have hbins := Packing.length_bins_le_closed (Packing.pack (fitsBlock sh) t.points)
    unfold dataBins
    omega
  · obtain ⟨e, he, hlong⟩ : ∃ e ∈ t.points, 100 < e.key.length + e.val.length := by
      by_contra hc
      exact hshort fun e he => not_lt.mp fun hlt => hc ⟨e, he, hlt⟩
    have hdata : (dataBins sh t.points).length ≤ t.points.length := Packing.length_bins_le fun e he => (h.encodable e he).2
    obtain ⟨a, b, hab⟩ := List.append_of_mem he
    have ha : a.length ≤ pointBytes a := length_le_pointBytes fun x hx => hkeys x (by rw [hab]; simp [hx])
    have hb : b.length ≤ pointBytes b := length_le_pointBytes fun x hx => hkeys x (by rw [hab]; simp [hx])
    have hsum : pointBytes t.points = pointBytes a + (e.key.length + e.val.length + pointBytes b) := by
      rw [hab]
      simp [pointBytes]
    have hlen : t.points.length = a.length + (b.length + 1) := by rw [hab]; simp
    omega

end Bounded

end MemTable

end Horton
