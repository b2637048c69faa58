import Horton.Db.Layout
import Horton.Db.Replayed
import Horton.Store.Placed

/-!
# What the device stores

`Stored` is the invariant of a device whose database is used by one handle after the other: the tables of its manifest hold the
older part `old` of the log, the blocks of the WAL behind the manifest's head the rest of it,
  `kept`.  The lemmas say what the
writes of a call, an edit of the manifest and a recovery do to it.
-/

namespace Horton

open BlockDev GroupLog Sstable

variable {sh : Shape} {c : Config} {d d' : Device} {m : Manifest} {next top : Nat} {conts conts' : Contents}
  {old kept rs : List Record}

/-! ### Replays -/

namespace MemTable

variable {t t' : MemTable} {r : Record}

/-- A record that is newer than all versions joins them. -/
theorem refines_replayRecord {h : List Entry} (hr : Refines sh t h) (hnew : ∀ e ∈ h, e.seq < r.seq)
    (hrun : WalWriter.replayRecord sh t r = .ok t') : Refines sh t' (h ++ [r.entry]) := by
  have hchange : ∀ {c : Change}, c.run sh t = WalWriter.replayRecord sh t r → c.record h = h ++ [r.entry] →
      (∀ seq ∈ c.seq?, seq = r.seq) → Refines sh t' (h ++ [r.entry]) := by
    intro c hc hrec hseq
    have hstep := step_refines hr (c := c) fun seq hs => hseq seq hs ▸ hnew
    unfold step at hstep
    rw [hc, hrun] at hstep
    dsimp only at hstep
    rwa [hrec] at hstep
  unfold WalWriter.replayRecord at hchange
  unfold Record.entry at hchange ⊢
  cases hop : r.op with
  | put =>
    simp only [hop] at hchange
    exact hchange (c := .insert r.key r.val r.seq false) rfl rfl (by simp [Change.seq?])
  | delete =>
    simp only [hop] at hchange
    exact hchange (c := .insert r.key r.val r.seq true) rfl rfl (by simp [Change.seq?])
  | putTtl =>
    simp only [hop] at hchange
    exact hchange (c := .insertTtl r.key r.val r.seq r.expireAt) rfl rfl (by simp [Change.seq?])
  | rangeDelete =>
    simp only [hop] at hchange
    exact hchange (c := .insertRangeDel r.key r.val r.seq) rfl rfl (by simp [Change.seq?])

/-- A replay of records with increasing numbers holds exactly their entries, sorted. -/
theorem refines_replayAll {done : List Record} (hr : Refines sh t (done.map Record.entry))
    (hs : (done ++ rs).Pairwise fun a b => a.seq < b.seq) (hrun : replayAll sh t rs = .ok t') :
    Refines sh t' ((done ++ rs).map Record.entry) := by
  induction rs generalizing t done with
  | nil =>
    obtain rfl := Except.ok.inj hrun
    rwa [List.append_nil]
  | cons r rs ih =>
    rw [replayAll, List.foldlM_cons] at hrun
    cases hone : WalWriter.replayRecord sh t r with
    | error e =>
      rw [hone] at hrun
      cases hrun
    | ok t₁ =>
      rw [hone] at hrun
      have hnew : ∀ e ∈ done.map Record.entry, e.seq < r.seq := by
        intro e he
        obtain ⟨x, hx, rfl⟩ := List.mem_map.mp he
        rw [x.entry_seq]
        exact (List.pairwise_append.mp hs).2.2 x hx r (by simp)
      have hmid := refines_replayRecord hr hnew hone
      have hcat : done ++ r :: rs = done ++ [r] ++ rs := by simp
      rw [hcat] at hs ⊢
      refine ih (t := t₁) ?_ hs hrun
      rw [List.map_append]
      exact hmid

end MemTable

/-! ### The newest number -/

/-- The number of the newest record of a log. -/
def lastSeq (log : List Record) : Nat := maxSeq 0 log

theorem seq_le_lastSeq {log : List Record} {r : Record} (h : r ∈ log) : r.seq ≤ lastSeq log := seq_le_maxSeq h

theorem lastSeq_le {log : List Record} {b : Nat} (h : ∀ r ∈ log, r.seq ≤ b) : lastSeq log ≤ b := maxSeq_le (Nat.zero_le _) h

theorem lastSeq_append (log rs : List Record) : lastSeq log ≤ lastSeq (log ++ rs) :=
  lastSeq_le fun _ hr => seq_le_lastSeq (List.mem_append_left _ hr)

/-! ### The invariant -/

/-- A configuration that `open` accepts, of a device whose block numbers are machine words. -/
structure Config.Works (sh : Shape) (c : Config) : Prop where
  bounded : c.Bounded
  accepted : ∃ s, c.Accepted sh s

/-- The manifest in memory of a device without one. -/
def Config.firstManifest (sh : Shape) (c : Config) : Manifest := { Manifest.new sh with walHead := c.walStart }

/-- The device stores the log `old ++ kept`: `old` in the tables of the manifest `m`, `kept` in the WAL, whose records end in
front of block `next` and have numbers up to `top`. -/
structure Stored (sh : Shape) (c : Config) (d : Device) (m : Manifest) (next top : Nat) (conts : Contents)
    (old kept : List Record) : Prop where
  holds : Manifest.Holds sh c.manifestLayout d m
  fresh : m.seq = 0 → m = c.firstManifest sh
  region : PlainRegion sh.BLOCK d c.walStart c.walEnd m.walHead next m.flushedSeq top kept
  high : m.flushedSeq ≤ m.seqHigh
  seqHigh_le : m.seqHigh ≤ lastSeq (old ++ kept)
  maxSeq_le : ∀ t ∈ m.tables, t.maxSeq ≤ lastSeq (old ++ kept)
  wf : ∀ r ∈ kept, r.WF ∧ r.len ≤ sh.BLOCK
  replay : ∃ t, replayAll sh .new kept = .ok t
  increasing : (old ++ kept).Pairwise fun a b => a.seq < b.seq
  pos : ∀ r ∈ old ++ kept, 0 < r.seq
  old_le : ∀ r ∈ old, r.seq ≤ m.flushedSeq
  kept_le : ∀ r ∈ kept, r.seq ≤ top
  entries : (m.tables.flatMap fun t => conts.part t.id).Perm (old.map Record.entry)
  tables : ∀ t ∈ m.tables, conts.On sh d.blocks t ∧ conts.Within t ∧ t.nodeId = c.nodeId
  ids : (m.tables.map TableRef.id).Nodup
  ids_lt : ∀ t ∈ m.tables, t.id < m.nextTableId
  inside : ∀ t ∈ m.tables, ∀ j, t.Has j → c.InTable j
  placed : ∀ s, SlotMap.layout c.tblStart c.tblEnd (Config.SLOTS sh) (Config.MIN_SLOT_BLOCKS sh) = some s → s.Places m.tables

namespace Stored

/-- A block that the stored log depends on. -/
def Uses (sh : Shape) (c : Config) (m : Manifest) (j : Nat) : Prop :=
  Manifest.InCopies sh c.manifestLayout j ∨ c.InWal j ∨ ∃ t ∈ m.tables, t.Has j

theorem le_top (h : Stored sh c d m next top conts old kept) : ∀ r ∈ old ++ kept, r.seq ≤ top := by
  intro r hr
  rcases List.mem_append.mp hr with hr | hr
  · exact (h.old_le r hr).trans h.region.floor_le
  · exact h.kept_le r hr

/-- Numbers may be left out. -/
theorem mono (h : Stored sh c d m next top conts old kept) {top' : Nat} (hle : top ≤ top') :
    Stored sh c d m next top' conts old kept :=
  { h with region := h.region.mono hle hle, kept_le := fun r hr => (h.kept_le r hr).trans hle }

/-- The manifest's copies, the WAL and the tables are all that matters. -/
theorem keeps (h : Stored sh c d m next top conts old kept) (hk : Keeps (Uses sh c m) d d') :
    Stored sh c d' m next top conts old kept := by
  refine { h with
    holds := h.holds.keeps (hk.mono fun j hj => Or.inl hj)
    region := h.region.keeps (hk.mono fun j hj => Or.inr (Or.inl hj))
    tables := ?_ }
  intro t ht
  obtain ⟨hon, hrest⟩ := h.tables t ht
  exact ⟨hon.keeps fun j hj => hk.blocks j (Or.inr (Or.inr ⟨t, ht, hj⟩)), hrest⟩

/-- The answers of the device do not matter. -/
theorem same (h : Stored sh c d m next top conts old kept) (hb : d'.blocks = d.blocks) (hw : d'.writes = d.writes) :
    Stored sh c d' m next top conts old kept := h.keeps (.of_eq _ hb hw)

/-- Contents of other tables do not matter. -/
theorem contents (h : Stored sh c d m next top conts old kept)
    (hc : ∀ t ∈ m.tables, conts'.points t.id = conts.points t.id ∧ conts'.rdels t.id = conts.rdels t.id) :
    Stored sh c d m next top conts' old kept := by
  have hpart : ∀ t ∈ m.tables, conts'.part t.id = conts.part t.id := by
    intro t ht
    unfold Contents.part
    rw [(hc t ht).1, (hc t ht).2]
  refine { h with entries := ?_, tables := ?_ }
  · rw [List.flatMap_congr hpart]
    exact h.entries
  · intro t ht
    obtain ⟨hon, hw, hnode⟩ := h.tables t ht
    obtain ⟨h1, h2⟩ := hc t ht
    refine ⟨⟨?_, ?_, ?_, ?_, ?_, ?_⟩, ⟨?_, ?_⟩, hnode⟩
    · rw [h1, h2]
      exact hon.stored
    · rw [h1]
      exact hon.sorted
    · rw [h1]
      exact hon.last_le
    · rw [h1]
      exact hon.vals
    · rw [h1]
      exact hon.points_le
    · rw [h2]
      exact hon.rdels_le
    · rw [h1]
      exact hw.points
    · rw [h2]
      exact hw.rdels

/-- The memtable of a replay of what the WAL keeps. -/
theorem memtable (h : Stored sh c d m next top conts old kept) {t : MemTable} (ht : replayAll sh .new kept = .ok t) :
    MemTable.Refines sh t (kept.map Record.entry) ∧ t.Bounded sh := by
  have hs := (List.pairwise_append.mp h.increasing).2.1
  exact ⟨@MemTable.refines_replayAll sh kept .new t [] MemTable.refines_new hs ht,
    MemTable.bounded_replayAll (MemTable.bounded_new sh) h.wf ht⟩

/-! ### Writes of a call -/

/-- Records that join the log behind those of the WAL. -/
theorem snoc (h : Stored sh c d m next top conts old kept) (hrs : Fresh top rs) (hlen : lens rs ≤ sh.BLOCK) {t t' : MemTable}
    (ht : replayAll sh .new kept = .ok t) (ht' : replayAll sh t rs = .ok t') {next' top' : Nat}
      (htop : ∀ r ∈ rs, r.seq ≤ top')
    (hle : top ≤ top') (hregion : PlainRegion sh.BLOCK d' c.walStart c.walEnd m.walHead next' m.flushedSeq top' (kept ++ rs))
    (hholds : Manifest.Holds sh c.manifestLayout d' m) (hblocks : ∀ j, c.InTable j → d'.blocks j = d.blocks j) :
    Stored sh c d' m next' top' conts old (kept ++ rs) := by
  have hreplay : replayAll sh .new (kept ++ rs) = .ok t' := by
    unfold replayAll at ht ht' ⊢
    rw [List.foldlM_append, ht]
    exact ht'
  have hone : ∀ r ∈ rs, r.len ≤ sh.BLOCK := by
    intro r hr
    obtain ⟨a, b, rfl⟩ := List.append_of_mem hr
    simp only [lens_append, lens_cons] at hlen
    omega
  have hlast : lastSeq (old ++ kept) ≤ lastSeq (old ++ (kept ++ rs)) := by
    rw [← List.append_assoc]
    exact lastSeq_append _ _
  refine { h with
    holds := hholds, region := hregion, seqHigh_le := h.seqHigh_le.trans hlast
    maxSeq_le := fun t ht => (h.maxSeq_le t ht).trans hlast, wf := ?_, replay := ⟨t', hreplay⟩, increasing := ?_, pos := ?_
    kept_le := ?_, tables := ?_ }
  · intro r hr
    rcases List.mem_append.mp hr with hr | hr
    · exact h.wf r hr
    · exact ⟨hrs.wf r hr, hone r hr⟩
  · rw [← List.append_assoc]
    refine List.pairwise_append.mpr ⟨h.increasing, hrs.increasing, fun a ha b hb => ?_⟩
    exact lt_of_le_of_lt (h.le_top a ha) (hrs.newer b hb)
  · intro r hr
    rw [← List.append_assoc] at hr
    rcases List.mem_append.mp hr with hr | hr
    · exact h.pos r hr
    · exact lt_of_le_of_lt (Nat.zero_le _) (hrs.newer r hr)
  · intro r hr
    rcases List.mem_append.mp hr with hr | hr
    · exact (h.kept_le r hr).trans hle
    · exact htop r hr
  · intro t ht
    obtain ⟨hon, hrest⟩ := h.tables t ht
    exact ⟨hon.keeps fun j hj => hblocks j (h.inside t ht j hj), hrest⟩

/-- The block of a group landed. -/
theorem write_whole (h : Stored sh c d m next top conts old kept) (hreg : c.Regions sh) (hrs : Fresh top rs)
    (hlen : lens rs ≤ sh.BLOCK) (hg : IsGroup rs) (hlt : next < c.walEnd) {t t' : MemTable}
    (ht : replayAll sh .new kept = .ok t) (ht' : replayAll sh t rs = .ok t') {top' : Nat} (htop : ∀ r ∈ rs, r.seq ≤ top')
    (hle : top ≤ top') (hb : d'.blocks = (d.put next (blockOf sh.BLOCK rs) (blockOf sh.BLOCK rs)).blocks)
    (hw : d'.writes = (d.put next (blockOf sh.BLOCK rs) (blockOf sh.BLOCK rs)).writes) :
    Stored sh c d' m (next + 1) top' conts old (kept ++ rs) := by
  have hstart := h.region.start_le
  have hhead := h.region.head_le
  have hin : c.InWal next := ⟨by omega, hlt⟩
  have hold := h.region.length_block next (by omega) hlt
  have htorn := (torn_refl d next (blockOf sh.BLOCK rs)).put_whole (by rw [length_blockOf hlen, hold])
  have hcl : closed rs = rs := by
    have hclosed : closed [rs].flatten = [rs].flatten := closed_flatten (by simpa using hg)
    simpa using hclosed
  have hne : rs ≠ [] := by
    obtain ⟨init, last, rfl, -⟩ := hg
    simp
  have hregion := h.region.write_whole htorn hrs hlen (by rw [length_blockOf hlen]; omega) hcl hne hlt hle hle htop
  refine h.snoc hrs hlen ht ht' htop hle (hregion.keeps (.of_eq _ hb hw)) ?_ fun j hj => ?_
  · exact holds_same (holds_put h.holds (fun hc => hreg.copies_wal _ hc hin) _ _) hb hw
  · rw [hb, Device.put_blocks_ne _ _ _ (by rintro rfl; exact hreg.wal_table _ hin hj)]

/-- The power was cut during the block write of a group: all of the group joined the log, or nothing did. -/
theorem write_torn (h : Stored sh c d m next top conts old kept) (hreg : c.Regions sh) (hrs : Fresh top rs)
    (hlen : lens rs ≤ sh.BLOCK) (hg : IsGroup rs) (hlt : next < c.walEnd) {t t' : MemTable}
    (ht : replayAll sh .new kept = .ok t) (ht' : replayAll sh t rs = .ok t') {top' : Nat} (htop : ∀ r ∈ rs, r.seq ≤ top')
    (hle : top ≤ top') {k : Nat}
    (hb : d'.blocks = (d.put next (blockOf sh.BLOCK rs) (Bytes.tear k (blockOf sh.BLOCK rs) (d.blocks next))).blocks)
    (hw : d'.writes = (d.put next (blockOf sh.BLOCK rs) (Bytes.tear k (blockOf sh.BLOCK rs) (d.blocks next))).writes)
    (hforge : NoForge d next) (hforge' : NoForge d' next) :
    ∃ next' kept', (kept' = kept ∨ kept' = kept ++ rs) ∧ Stored sh c d' m next' top' conts old kept' := by
  have hstart := h.region.start_le
  have hhead := h.region.head_le
  have hin : c.InWal next := ⟨by omega, hlt⟩
  have hold := h.region.length_block next (by omega) hlt
  have htorn := (torn_refl d next (blockOf sh.BLOCK rs)).put (by rw [length_blockOf hlen, hold]) k
  have hkeep : Keeps (fun j => c.walStart ≤ j ∧ j < c.walEnd)
      (d.put next (blockOf sh.BLOCK rs) (Bytes.tear k (blockOf sh.BLOCK rs) (d.blocks next))) d' := .of_eq _ hb hw
  have hback : NoForge (d.put next (blockOf sh.BLOCK rs) (Bytes.tear k (blockOf sh.BLOCK rs) (d.blocks next))) next :=
    hforge'.keeps (P := fun _ => True) (.of_eq _ hb.symm hw.symm) trivial
  obtain ⟨n, next', hregion⟩ := h.region.write_torn htorn hrs hlen hlt hle hle htop hforge hback
  have hholds : Manifest.Holds sh c.manifestLayout d' m :=
    holds_same (holds_put h.holds (fun hc => hreg.copies_wal _ hc hin) _ _) hb hw
  have hblocks : ∀ j, c.InTable j → d'.blocks j = d.blocks j := by
    intro j hj
    rw [hb, Device.put_blocks_ne _ _ _ (by rintro rfl; exact hreg.wal_table _ hin hj)]
  replace hregion := hregion.keeps hkeep
  -- A prefix of one group has the whole group or none of it.
  have hall : ∀ g ∈ [rs], IsGroup g := by simpa using hg
  obtain ⟨i, hi⟩ := closed_take_flatten hall n
  rw [List.flatten_cons, List.flatten_nil, List.append_nil] at hi
  rw [hi] at hregion
  cases i with
  | zero =>
    rw [List.take_zero, List.flatten_nil, List.append_nil] at hregion
    refine ⟨next', kept, Or.inl rfl, { h with holds := hholds, region := hregion, kept_le := ?_, tables := ?_ }⟩
    · exact fun r hr => (h.kept_le r hr).trans hle
    · intro t ht
      obtain ⟨hon, hrest⟩ := h.tables t ht
      exact ⟨hon.keeps fun j hj => hblocks j (h.inside t ht j hj), hrest⟩
  | succ i =>
    rw [List.take_of_length_le (by simp), List.flatten_cons, List.flatten_nil, List.append_nil] at hregion
    exact ⟨next', kept ++ rs, Or.inr rfl, h.snoc hrs hlen ht ht' htop hle hregion hholds hblocks⟩

/-! ### Recovery -/

/-- `open` finds the manifest, and its walk over the WAL what the log keeps. -/
theorem recover (h : Stored sh c d m next top conts old kept) (hf : Manifest.NoForgedCopy sh c.manifestLayout d)
    (hforge : ∀ j, c.InWal j → NoForge d j) {r : Manifest × Bool}
    (hr : (Manifest.recoverFrom sh c.manifestLayout).eval d.blocks = .ok r) :
    Db.firstHead c r = m ∧ (Db.logWalk c d m).1 = kept ∧ (Db.logWalk c d m).2.2.max ≤ lastSeq (old ++ kept) ∧
      Stored sh c d m (Db.logWalk c d m).2.1 (max (Db.logWalk c d m).2.2.max m.flushedSeq) conts old kept := by
  rw [h.holds.recover hf] at hr
  obtain rfl := Except.ok.inj hr
  obtain ⟨rest, hwalk, hlone, hregion⟩ := h.region.recover fun j h1 h2 => hforge j ⟨h1, h2⟩
  obtain rfl : rest = [] := by
    cases rest with
    | nil => rfl
    | cons a as => exact (hlone a List.mem_cons_self).elim
  rw [List.append_nil] at hwalk
  have hwalk' : (Db.logWalk c d m).1 = kept := hwalk
  refine ⟨?_, hwalk', ?_, { h with region := ?_, kept_le := ?_ }⟩
  · unfold Manifest.recovered
    split
    · rename_i h0
      exact (h.fresh h0).symm
    · rfl
  · obtain ⟨hw, -⟩ := walk_window (summaries d) m.flushedSeq (c.walEnd - m.walHead) m.walHead ⟨0, none⟩
    refine hw.max_le_replayed (Nat.zero_le _) (h.high.trans h.seqHigh_le) fun r hr => ?_
    rw [hwalk] at hr
    exact seq_le_lastSeq (List.mem_append_right _ hr)
  · have hr := hregion.mono le_rfl (Nat.le_max_left (Db.logWalk c d m).2.2.max m.flushedSeq)
    rw [show (walk (summaries d) m.flushedSeq (c.walEnd - m.walHead) m.walHead ⟨0, none⟩).1 = kept from hwalk] at hr
    exact hr
  · intro r hr
    obtain ⟨hw, -⟩ := walk_window (summaries d) m.flushedSeq (c.walEnd - m.walHead) m.walHead ⟨0, none⟩
    rw [← hwalk'] at hr
    exact (hw.le_max.2 r hr).trans (Nat.le_max_left _ _)

/-! ### Edits of the manifest -/

/-- An edit that moves what the WAL keeps into at most one new table of level 0 and lifts the floor over it. -/
structure Moves (c : Config) (m : Manifest) (top head : Nat) (e : ManifestEdit) : Prop where
  removed : e.removed = 0
  narrowed : e.narrowed = 0
  stamped : e.stamped = none
  level : ∀ x ∈ e.added, x.1 = 0
  walHead : e.walHead = some head
  head_ge : c.walStart ≤ head
  head_le : head ≤ c.walEnd
  flushed : e.flushed = top
  high : e.seqHigh = 0
  id : ∀ x ∈ e.added, x.2.id = m.nextTableId ∧ e.nextTableId = m.nextTableId + 1

/-- The device behind such an edit stores the same log. -/
theorem edit (h : Stored sh c d m next top conts old kept) {e : ManifestEdit} {head : Nat} (hm : Moves c m top head e)
    (hholds : Manifest.Holds sh c.manifestLayout d' (m.view sh e))
    (hk : Keeps (fun j => ¬Manifest.InCopies sh c.manifestLayout j) d d') (hreg : c.Regions sh)
      (htop : top ≤ lastSeq (old ++ kept))
    (hnone : e.added = none → kept = [])
    (hadd : ∀ x ∈ e.added, conts.On sh d.blocks x.2 ∧ conts.Within x.2 ∧ x.2.nodeId = c.nodeId ∧
      (conts.part x.2.id).Perm (kept.map Record.entry) ∧ (∀ j, x.2.Has j → c.InTable j) ∧
      x.2.maxSeq ≤ lastSeq (old ++ kept) ∧ ∀ s, SlotMap.layout c.tblStart c.tblEnd (Config.SLOTS sh)
        (Config.MIN_SLOT_BLOCKS sh) = some s →
        s.Places (x.2 :: m.tables)) :
    Stored sh c d' (m.view sh e) head top conts (old ++ kept) [] := by
  have hperm := Manifest.tables_view h.holds.wf.length_levels hm.removed hm.narrowed hm.stamped hm.level
  have hfloor : (m.view sh e).flushedSeq = top := by
    show max m.flushedSeq e.flushed = top
    rw [hm.flushed]
    exact max_eq_right h.region.floor_le
  have hhead : (m.view sh e).walHead = head := by
    show e.walHead.getD m.walHead = head
    rw [hm.walHead]
    rfl
  have hmem : ∀ t ∈ (m.view sh e).tables, t ∈ m.tables ∨ ∃ x ∈ e.added, t = x.2 := by
    intro t ht
    rcases List.mem_append.mp (hperm.mem_iff.mp ht) with ht | ht
    · right
      cases ha : e.added with
      | none =>
        rw [ha] at ht
        cases ht
      | some x =>
        rw [ha] at ht
        exact ⟨x, rfl, by simpa using ht⟩
    · exact Or.inl ht
  have hblocks : ∀ j, c.InTable j → d'.blocks j = d.blocks j := fun j hj =>
    hk.blocks j fun hc => hreg.copies_table j hc hj
  constructor
  · exact hholds
  · intro h0
    cases h0
  · rw [hfloor, hhead]
    have hregion := h.region.flush hm.head_ge hm.head_le le_rfl h.region.floor_le
    exact hregion.keeps (hk.mono fun j hj hc => hreg.copies_wal j hc hj)
  · rw [hfloor]
    show top ≤ max (max m.seqHigh e.seqHigh) e.flushed
    rw [hm.flushed]
    exact le_max_right _ _
  · rw [List.append_nil]
    show max (max m.seqHigh e.seqHigh) e.flushed ≤ _
    rw [hm.high, hm.flushed]
    exact max_le (max_le h.seqHigh_le (Nat.zero_le _)) htop
  · rw [List.append_nil]
    intro t ht
    rcases hmem t ht with ht | ⟨x, hx, rfl⟩
    · exact h.maxSeq_le t ht
    · exact (hadd x hx).2.2.2.2.2.1
  · exact fun r hr => absurd hr (by simp)
  · exact ⟨.new, rfl⟩
  · rw [List.append_nil]
    exact h.increasing
  · rw [List.append_nil]
    exact h.pos
  · rw [hfloor]
    exact h.le_top
  · exact fun r hr => absurd hr (by simp)
  · refine (hperm.flatMap_right _).trans ?_
    rw [List.flatMap_append, List.map_append]
    refine List.Perm.trans (List.Perm.append ?_ h.entries) List.perm_append_comm
    cases ha : e.added with
    | none =>
      rw [hnone ha]
      exact .refl _
    | some x => simpa using (hadd x ha).2.2.2.1
  · intro t ht
    rcases hmem t ht with ht | ⟨x, hx, rfl⟩
    · obtain ⟨hon, hrest⟩ := h.tables t ht
      exact ⟨hon.keeps fun j hj => hblocks j (h.inside t ht j hj), hrest⟩
    · obtain ⟨hon, hw, hnode, -, hin, -, -⟩ := hadd x hx
      exact ⟨hon.keeps fun j hj => hblocks j (hin j hj), hw, hnode⟩
  · refine ((hperm.map TableRef.id).nodup_iff).mpr ?_
    rw [List.map_append]
    cases ha : e.added with
    | none => simpa using h.ids
    | some x =>
      have hid := (hm.id x ha).1
      refine List.nodup_cons.mpr ⟨?_, h.ids⟩
      intro hmem
      obtain ⟨t, ht, heq⟩ := List.mem_map.mp hmem
      have := h.ids_lt t ht
      omega
  · intro t ht
    show t.id < max m.nextTableId e.nextTableId
    rcases hmem t ht with ht | ⟨x, hx, rfl⟩
    · exact lt_of_lt_of_le (h.ids_lt t ht) (Nat.le_max_left _ _)
    · obtain ⟨h1, h2⟩ := hm.id x hx
      rw [h1, h2]
      exact lt_of_lt_of_le (Nat.lt_succ_self _) (Nat.le_max_right _ _)
  · intro t ht
    rcases hmem t ht with ht | ⟨x, hx, rfl⟩
    · exact h.inside t ht
    · exact (hadd x hx).2.2.2.2.1
  · intro s hs
    refine SlotMap.Places.perm ?_ hperm.symm
    cases ha : e.added with
    | none => exact h.placed s hs
    | some x => exact (hadd x ha).2.2.2.2.2.2 s hs

end Stored

end Horton
