import Horton.Db.Flushable
import Horton.KeyBound
import Horton.Store.Parts

/-!
# The table of a flush

A flush that wrote its blocks leaves a table with the entries of the memtable on the device (`FlushPlan.on`), and the bounds
of its ref hold all of them (`FlushPlan.within`).
-/

namespace Horton

open BlockDev Sstable

/-! ### Bounds -/

namespace KeyBound

theorem le_max_left (a b : Bytes) : a ≤ KeyBound.max a b := by
  unfold KeyBound.max
  split_ifs with h1 h2 h3
  · rw [h1]
    exact nil_le b
  · exact le_rfl
  · exact le_of_lt h3
  · exact le_rfl

theorem le_max_right (a b : Bytes) : b ≤ KeyBound.max a b := by
  unfold KeyBound.max
  split_ifs with h1 h2 h3
  · exact le_rfl
  · rw [h2]
    exact nil_le a
  · exact le_rfl
  · exact not_lt.mp h3

theorem min_le_left {a : Bytes} (b : Bytes) (h : a ≠ []) : KeyBound.min a b ≤ a := by
  unfold KeyBound.min
  rw [if_neg h]
  split_ifs with h2 h3
  · exact le_rfl
  · exact le_of_lt h3
  · exact le_rfl

theorem min_le_right (a : Bytes) {b : Bytes} (h : b ≠ []) : KeyBound.min a b ≤ b := by
  unfold KeyBound.min
  rw [if_neg h]
  split_ifs with h1 h3
  · exact le_rfl
  · exact le_rfl
  · exact not_lt.mp h3

end KeyBound

namespace Sstable

variable {sh : Shape} {es : List SstEntry} {rs : List RdelEntry} {e : SstEntry} {r : RdelEntry}

theorem seq_le_maxSeqOf (h : e ∈ es) : e.seq ≤ maxSeqOf es := by
  induction es using List.reverseRecOn with
  | nil => cases h
  | append_singleton es x ih =>
    rw [maxSeqOf_concat]
    rcases List.mem_append.mp h with h | h
    · exact (ih h).trans (Nat.le_max_left _ _)
    · obtain rfl := List.mem_singleton.mp h
      exact Nat.le_max_right _ _

theorem maxSeqOf_le {b : Nat} (h : ∀ e ∈ es, e.seq ≤ b) : maxSeqOf es ≤ b := by
  induction es using List.reverseRecOn with
  | nil => exact Nat.zero_le _
  | append_singleton es x ih =>
    rw [maxSeqOf_concat]
    exact max_le (ih fun e he => h e (List.mem_append_left _ he)) (h x (by simp))

theorem key_le_lastKeyOf (hs : es.Pairwise SstEntry.Before) (h : e ∈ es) : e.key ≤ lastKeyOf es := by
  induction es using List.reverseRecOn with
  | nil => cases h
  | append_singleton es x _ =>
    rw [lastKeyOf_concat]
    rcases List.mem_append.mp h with h | h
    · exact ((List.pairwise_append.mp hs).2.2 e h x (by simp)).key_le
    · obtain rfl := List.mem_singleton.mp h
      exact le_rfl

/-- What a plan of range tombstones says of the tombstones, behind those that `s` has counted. -/
private theorem planRdel_covers {s s' : RdelPlan × Nat} (h : rs.foldlM (planRdelStep sh) s = .ok s') :
    s'.1.first = s.1.first.or (rs.head?.map RdelEntry.start) ∧ s.1.maxSeq ≤ s'.1.maxSeq ∧
      (∀ m ∈ s.1.maxEnd, ∃ m' ∈ s'.1.maxEnd, m ≤ m') ∧ (∀ r ∈ rs, r.seq ≤ s'.1.maxSeq ∧ ∃ m ∈ s'.1.maxEnd, r.stop ≤ m) ∧
      (∀ m ∈ s'.1.maxEnd, m ∈ s.1.maxEnd ∨ ∃ r ∈ rs, m = r.stop) ∧
      (s'.1.maxSeq = s.1.maxSeq ∨ ∃ r ∈ rs, s'.1.maxSeq = r.seq) := by
  induction rs generalizing s with
  | nil =>
    obtain rfl := Except.ok.inj h
    refine ⟨?_, le_rfl, fun m hm => ⟨m, hm, le_rfl⟩, fun r hr => absurd hr (by simp), fun m hm => Or.inl hm, Or.inl rfl⟩
    cases s.1.first <;> rfl
  | cons r rs ih =>
    rw [List.foldlM_cons] at h
    cases hstep : planRdelStep sh s r with
    | error x =>
      rw [hstep] at h
      cases h
    | ok s₁ =>
      rw [hstep] at h
      obtain ⟨hfirst, hmax, hend, hall, hfrom, hseq⟩ := ih h
      have hone : s₁.1.first = s.1.first.or (some r.start) ∧ s₁.1.maxSeq = max s.1.maxSeq r.seq ∧
          s₁.1.maxEnd = if s.1.maxEnd.all (r.stop > ·) then some r.stop else s.1.maxEnd := by
        unfold planRdelStep at hstep
        dsimp only at hstep
        split at hstep
        · cases hstep
        · obtain rfl := Except.ok.inj hstep
          exact ⟨rfl, rfl, rfl⟩
      obtain ⟨h1, h2, h3⟩ := hone
      -- The greatest end so far is at least the old one and that of the tombstone.
      have hgrow : ∃ m ∈ s₁.1.maxEnd, r.stop ≤ m ∧ (∀ x ∈ s.1.maxEnd, x ≤ m) ∧ (m = r.stop ∨ m ∈ s.1.maxEnd) := by
        rw [h3]
        cases hm : s.1.maxEnd with
        | none => exact ⟨r.stop, rfl, le_rfl, fun x hx => absurd hx (by simp), Or.inl rfl⟩
        | some x =>
          by_cases hlt : x < r.stop
          · refine ⟨r.stop, by simp [hlt], le_rfl, fun y hy => ?_, Or.inl rfl⟩
            obtain rfl := Option.some.inj hy
            exact le_of_lt hlt
          · refine ⟨x, by simp [hlt], not_lt.mp hlt, fun y hy => ?_, Or.inr rfl⟩
            obtain rfl := Option.some.inj hy
            exact le_rfl
      obtain ⟨m, hm, hrm, hold, hmfrom⟩ := hgrow
      refine ⟨?_, ?_, ?_, ?_, ?_, ?_⟩
      · rw [hfirst, h1, List.head?_cons]
        cases s.1.first <;> rfl
      · rw [h2] at hmax
        exact (Nat.le_max_left _ _).trans hmax
      · intro x hx
        obtain ⟨m', hm', hle⟩ := hend m hm
        exact ⟨m', hm', (hold x hx).trans hle⟩
      · intro y hy
        rcases List.mem_cons.mp hy with rfl | hy
        · obtain ⟨m', hm', hle⟩ := hend m hm
          rw [h2] at hmax
          exact ⟨(Nat.le_max_right _ _).trans hmax, m', hm', hrm.trans hle⟩
        · exact hall y hy
      · intro x hx
        rcases hfrom x hx with hx | ⟨y, hy, rfl⟩
        · obtain rfl := Option.some.inj (hx.symm.trans hm)
          exact hmfrom.symm.imp_right fun heq => ⟨r, List.mem_cons_self, heq⟩
        · exact Or.inr ⟨y, List.mem_cons_of_mem _ hy, rfl⟩
      · rcases hseq with heq | ⟨y, hy, heq⟩
        · rw [heq, h2]
          rcases max_choice s.1.maxSeq r.seq with hm | hm
          · exact Or.inl hm
          · exact Or.inr ⟨r, List.mem_cons_self, hm⟩
        · exact Or.inr ⟨y, List.mem_cons_of_mem _ hy, heq⟩

/-- The plan of a section bounds its tombstones. -/
theorem planRdelBlocks_covers {plan : RdelPlan} (h : planRdelBlocks sh rs = .ok plan) :
    plan.first = rs.head?.map RdelEntry.start ∧ (∀ r ∈ rs, r.seq ≤ plan.maxSeq ∧ ∃ m ∈ plan.maxEnd, r.stop ≤ m) ∧
      (∀ m ∈ plan.maxEnd, ∃ r ∈ rs, m = r.stop) ∧ (plan.maxSeq = 0 ∨ ∃ r ∈ rs, plan.maxSeq = r.seq) := by
  rw [planRdelBlocks] at h
  cases hs : rs.foldlM (planRdelStep sh) (⟨0, none, none, 0, U64_MAX⟩, 0) with
  | error x =>
    rw [hs] at h
    cases h
  | ok s =>
    rw [hs] at h
    obtain rfl := Except.ok.inj h
    obtain ⟨h1, -, -, h2, h3, h4⟩ := planRdel_covers hs
    exact ⟨h1, h2, fun m hm => (h3 m hm).resolve_left (by simp), h4⟩

/-- The number of hash functions of a bloom filter fits its byte. -/
theorem bloomK_range (bits entries : Nat) : 0 < bloomK bits entries ∧ bloomK bits entries < 256 := by
  unfold bloomK
  dsimp only
  constructor
  · exact Nat.lt_of_lt_of_le Nat.one_pos (Nat.le_max_left _ _)
  · refine max_lt (by decide) (lt_of_le_of_lt (Nat.min_le_right _ _) (by decide))

end Sstable

/-! ### The sections of a memtable -/

/-- A block of range tombstones never holds so many that their number does not read back. -/
def Shape.RdelCounts (sh : Shape) : Prop := sh.CAP < 2 ^ 15 ∨ sh.BLOCK < 14 * 2 ^ 15

instance (sh : Shape) : Decidable sh.RdelCounts := inferInstanceAs (Decidable (_ ∨ _))

namespace MemTable

variable {sh : Shape} {t : MemTable}

/-- The two sections of a memtable hold its entries. -/
theorem sections_perm (h : ∀ e ∈ t.iter, e.rangeDel = true → e.tombstone = true ∧ e.expireAt = 0) :
    (t.points.map SstEntry.entry ++ t.rdels.map RdelEntry.entry).Perm t.iter := by
  unfold points rdels
  generalize t.iter = es at h
  induction es with
  | nil => exact .refl _
  | cons e es ih =>
    have hrest := ih fun x hx => h x (List.mem_cons_of_mem _ hx)
    cases hr : e.rangeDel with
    | false =>
      have he : (SstEntry.ofEntry e).entry = e := by
        cases e
        simp only at hr
        simp [SstEntry.ofEntry, SstEntry.entry, hr]
      simp only [hr, Bool.not_false, List.filter_cons_of_pos, List.map_cons, List.cons_append, he,
        Bool.false_eq_true, if_false, List.filterMap_cons_none]
      exact hrest.cons e
    | true =>
      obtain ⟨h1, h2⟩ := h e List.mem_cons_self hr
      have he : (RdelEntry.mk e.key e.val e.seq).entry = e := by
        cases e
        simp only at hr h1 h2
        simp [RdelEntry.entry, hr, h1, h2]
      simp only [hr, Bool.not_true, Bool.false_eq_true, not_false_eq_true, List.filter_cons_of_neg, if_true,
        Option.some.injEq, List.filterMap_cons_some, List.map_cons, he]
      exact List.perm_middle.trans (hrest.cons e)

theorem points_sorted (h : t.iter.Pairwise Entry.Before) : t.points.Pairwise SstEntry.Before :=
  List.pairwise_map.mpr ((h.sublist List.filter_sublist).imp id)

theorem rdels_sorted (h : t.iter.Pairwise Entry.Before) : t.rdels.Pairwise fun a b => a.start ≤ b.start := by
  refine List.pairwise_filterMap.mpr (h.imp ?_)
  intro a b hab x hx y hy
  split at hx
  · split at hy
    · obtain rfl := Option.some.inj hx
      obtain rfl := Option.some.inj hy
      exact hab.elim le_of_lt fun heq => heq.1.le
    · cases hy
  · cases hx

namespace Bounded

/-- The tombstones of a block are few enough. -/
theorem counts (h : t.Bounded sh) (hsh : sh.RdelCounts) : ∀ b ∈ rdelBins sh t.rdels, b.length < 2 ^ 15 := by
  have hfit : ∀ r ∈ t.rdels, fitsRdel sh [] r = true := fun r hr => (h.rdelOk r hr).fits_nil
  have hflat : (rdelBins sh t.rdels).flatten = t.rdels := by
    rw [rdelBins, Packing.flatten_bins, Packing.flatten_pack]
  intro b hb
  rcases hsh with hcap | hblock
  · have hle := h.checked.count_le
    have hsub := (List.sublist_flatten_of_mem hb).length_le
    rw [hflat] at hsub
    omega
  · have hroom : (encodeRdels b).length + RDEL_TRAILER ≤ sh.BLOCK := by
      refine @Packing.forall_mem_bins _ (fitsRdel sh) (fun b => (encodeRdels b).length + RDEL_TRAILER ≤ sh.BLOCK)
        t.rdels ?_ ?_
        hfit b hb
      · intro r hr
        simpa [fitsRdel, encodeRdels] using hfit r hr
      · intro b _ r _ hf
        rw [encodeRdels_concat, List.length_append]
        exact of_decide_eq_true hf
    have hbytes : 2 * b.length ≤ rdelBytes b := by
      refine two_mul_length_le_rdelBytes fun r hr => ?_
      obtain ⟨x, hx, hdel, rfl⟩ := h.rdel_mem (hflat ▸ List.mem_flatten.mpr ⟨b, hb, hr⟩)
      exact ⟨hx.key_ne, (hx.stop hdel).1⟩
    rw [length_encodeRdels_eq] at hroom
    omega

theorem rdelWF (h : t.Bounded sh) : ∀ r ∈ t.rdels, RdelWF sh r := by
  intro r hr
  obtain ⟨x, hx, hdel, rfl⟩ := h.rdel_mem hr
  have hseq := hx.seq_lt
  refine ⟨hx.key_ne, (hx.stop hdel).1, hx.key_le, (hx.stop hdel).2, ?_⟩
  show x.seq ≤ 2 ^ 64 - 1
  omega

theorem point_sizes (h : t.Bounded sh) : ∀ e ∈ t.points,
    entrySizes e = .ok (encodeEntry e).length ∧ fitsBlock sh [] e = true ∧ e.key.length ≤ sh.KEY_MAX := by
  intro e he
  obtain ⟨henc, hfit⟩ := h.encodable e he
  exact ⟨entrySizes_of_encodable henc, hfit, henc.key_le⟩

end Bounded

end MemTable

/-! ### What the flush leaves -/

namespace Db

variable {sh : Shape} {db : Db} {d d₁ : Device} {plan : TablePlan} {rdelPlan : RdelPlan} {slot k id nodeId : Nat}
  {tref : TableRef}
  {c : Contents}

theorem flushTref_ok {base total : Nat} (h : flushTref sh nodeId id base total plan rdelPlan = .ok tref) : tref =
    { id := id
      firstBlock := base
      blockCount := total
      firstKey := KeyBound.min plan.firstKey (rdelBound sh rdelPlan.first)
      lastKey := KeyBound.max plan.lastKey (rdelBound sh rdelPlan.maxEnd)
      maxSeq := max plan.maxSeq rdelPlan.maxSeq
      minSeq := min plan.minSeq rdelPlan.minSeq
      entryCount := plan.entryCount
      rdelBlocks := rdelPlan.blocks
      nodeId := nodeId
      sealWall := 0 } := by
  unfold flushTref at h
  split_ifs at h
  exact (Except.ok.inj h).symm

/-- The table that a flush wrote, as a build. -/
theorem built_of_flush {base : Nat} (ht : db.table.Bounded sh) (hbase : base ≤ U64_MAX)
    (hrun : writeFlushTable sh db.table base k plan rdelPlan db d = (.ok (), db, d₁)) : ∃ x,
      Buildable sh base plan.dataBlocks db.table.points db.table.rdels ∧
      Built sh base k db.table.points db.table.rdels rdelPlan.minSeq x d₁ := by
  have hrange : ∀ e ∈ db.table.points.map (·, true), TableWriter.InRange e.1 := by
    intro e he
    obtain ⟨x, hx, rfl⟩ := List.mem_map.mp he
    exact ht.inRange x hx
  have hdel := @buildTable_delivers Db db d sh (db.table.points.map (·, true)) true base k plan.dataBlocks db.table.rdels
    rdelPlan.minSeq hbase hrange
  rw [List.map_map, show (Prod.fst ∘ fun e : SstEntry => (e, true)) = id from rfl, List.map_id] at hdel
  rw [writeFlushTable_eq] at hrun
  change Prog.bind _ _ db d = _ at hrun
  unfold Prog.wp at hdel
  unfold Prog.bind at hrun
  rcases hb : buildTable sh (db.table.points.map (·, true)) true base k plan.dataBlocks db.table.rdels rdelPlan.minSeq db d
    with ⟨o, s', d'⟩
  rw [hb] at hdel hrun
  cases o with
  | ok x =>
    obtain ⟨⟨-, hbuild, hbuilt⟩, -⟩ := hdel
    cases hrun
    exact ⟨x, hbuild, hbuilt⟩
  | err e => cases hrun
  | cut => cases hrun
  | dropped => cases hrun

namespace FlushPlan

theorem plan_eq (hp : FlushPlan sh db plan rdelPlan slot) (ht : db.table.Bounded sh) :
    plan = ⟨(dataBins sh db.table.points).length, db.table.points.length, maxSeqOf db.table.points, minSeqOf db.table.points,
      firstKeyOf db.table.points, lastKeyOf db.table.points⟩ := by
  have hplan := planTable_eq ht.point_sizes
  rw [hp.points] at hplan
  exact Except.ok.inj hplan

theorem rdelBlocks_eq (hp : FlushPlan sh db plan rdelPlan slot) (ht : db.table.Bounded sh) :
    rdelPlan.blocks = (rdelBins sh db.table.rdels).length := by
  obtain ⟨plan', hplan, hblocks⟩ := planRdelBlocks_eq fun r hr => (ht.rdelOk r hr).fits_nil
  rw [hp.rdels] at hplan
  rw [Except.ok.inj hplan]
  exact hblocks

/-- The bounds of the ref hold all of the table. -/
theorem within (hp : FlushPlan sh db plan rdelPlan slot) (ht : db.table.Bounded sh)
    (hs : db.table.iter.Pairwise Entry.Before)
    (htref : flushTref sh nodeId id (db.slots.slotBase slot) (rdelPlan.blocks + plan.dataBlocks + 3) plan rdelPlan = .ok tref)
    (hpoints : c.points tref.id = db.table.points) (hrdels : c.rdels tref.id = db.table.rdels) :
    c.Within tref ∧ (∀ e ∈ db.table.points, e.seq ≤ tref.maxSeq) ∧ ∀ r ∈ db.table.rdels, r.seq ≤ tref.maxSeq := by
  have hsorted := MemTable.points_sorted hs
  obtain ⟨hfirst, hall, hfrom, -⟩ := planRdelBlocks_covers hp.rdels
  have hplan := hp.plan_eq ht
  obtain rfl := flushTref_ok htref
  dsimp only at hpoints hrdels ⊢
  have hkey : ∀ e ∈ db.table.points, firstKeyOf db.table.points ≠ [] ∧ firstKeyOf db.table.points ≤ e.key := by
    intro e he
    cases hl : db.table.points with
    | nil =>
      rw [hl] at he
      cases he
    | cons x xs =>
      rw [hl] at he hsorted
      refine ⟨(ht.encodable x (by simp [hl])).1.key_ne, ?_⟩
      rcases List.mem_cons.mp he with rfl | he
      · exact le_rfl
      · exact ((List.pairwise_cons.mp hsorted).1 e he).key_le
  -- The first tombstone starts first, and the bound of the greatest end is kept.
  have hstart : ∀ r ∈ db.table.rdels, rdelBound sh rdelPlan.first ≠ [] ∧ rdelBound sh rdelPlan.first ≤ r.start := by
    intro r hr
    have hrs := MemTable.rdels_sorted hs
    rw [hfirst]
    cases hl : db.table.rdels with
    | nil =>
      rw [hl] at hr
      cases hr
    | cons x xs =>
      have hwf := ht.rdelWF x (by simp [hl])
      have hbound : rdelBound sh ((x :: xs).head?.map RdelEntry.start) = x.start := by
        simp [rdelBound, Option.filter, hwf.start_le]
      rw [hbound]
      rw [hl] at hrs hr
      refine ⟨hwf.start_ne, ?_⟩
      rcases List.mem_cons.mp hr with rfl | hr
      · exact le_rfl
      · exact (List.pairwise_cons.mp hrs).1 r hr
  have hstop : ∀ r ∈ db.table.rdels, r.stop ≤ rdelBound sh rdelPlan.maxEnd := by
    intro r hr
    obtain ⟨-, m, hm, hle⟩ := hall r hr
    obtain ⟨x, hx, rfl⟩ := hfrom m hm
    have hm' : rdelPlan.maxEnd = some x.stop := hm
    have hbound : rdelBound sh rdelPlan.maxEnd = x.stop := by
      rw [hm']
      simp [rdelBound, Option.filter, (ht.rdelWF x hx).stop_le]
    rw [hbound]
    exact hle
  have hpf : plan.firstKey = firstKeyOf db.table.points := by rw [hplan]
  have hpl : plan.lastKey = lastKeyOf db.table.points := by rw [hplan]
  have hpm : plan.maxSeq = maxSeqOf db.table.points := by rw [hplan]
  refine ⟨⟨fun e he => ?_, fun r hr => ?_⟩, fun e he => ?_, fun r hr => ?_⟩
  · rw [hpoints] at he
    dsimp only
    rw [hpf, hpl]
    obtain ⟨hne, hle⟩ := hkey e he
    exact ⟨(KeyBound.min_le_left _ hne).trans hle, (key_le_lastKeyOf hsorted he).trans (KeyBound.le_max_left _ _)⟩
  · rw [hrdels] at hr
    dsimp only
    obtain ⟨hne, hle⟩ := hstart r hr
    exact ⟨(KeyBound.min_le_right _ hne).trans hle, (hstop r hr).trans (KeyBound.le_max_right _ _)⟩
  · rw [hpm]
    exact (seq_le_maxSeqOf he).trans (Nat.le_max_left _ _)
  · exact (hall r hr).1.trans (Nat.le_max_right _ _)

/-- The number of the ref is that of an entry, or none. -/
theorem maxSeq_le (hp : FlushPlan sh db plan rdelPlan slot) (ht : db.table.Bounded sh)
    (htref : flushTref sh nodeId id (db.slots.slotBase slot) (rdelPlan.blocks + plan.dataBlocks + 3) plan rdelPlan = .ok tref)
    {b : Nat} (h : ∀ e ∈ db.table.iter, e.seq ≤ b) : tref.maxSeq ≤ b := by
  have hpm : plan.maxSeq = maxSeqOf db.table.points := by rw [hp.plan_eq ht]
  obtain rfl := flushTref_ok htref
  refine max_le (hpm.trans_le (maxSeqOf_le fun e he => ?_)) ?_
  · obtain ⟨x, hx, rfl⟩ := List.mem_map.mp he
    exact h x (List.mem_of_mem_filter hx)
  · obtain ⟨-, -, -, hzero | ⟨r, hr, heq⟩⟩ := planRdelBlocks_covers hp.rdels
    · rw [hzero]
      exact Nat.zero_le _
    · obtain ⟨x, hx, hsome⟩ := List.mem_filterMap.mp hr
      split at hsome
      · rw [heq, ← Option.some.inj hsome]
        exact h x hx
      · cases hsome

/-- The table lies on the device with the entries of the memtable. -/
theorem on (hp : FlushPlan sh db plan rdelPlan slot) (ht : db.table.Bounded sh) (hs : db.table.iter.Pairwise Entry.Before)
    (hsh : sh.RdelCounts) (hin : db.SlotsInside) (hend : db.cfg.tblEnd < 2 ^ 64) {entries : Nat}
    (hrun : writeFlushTable sh db.table (db.slots.slotBase slot) (bloomK (sh.BLOOM_BYTES * 8) entries) plan rdelPlan db d =
      (.ok (), db, d₁))
    (htref : flushTref sh nodeId id (db.slots.slotBase slot) (rdelPlan.blocks + plan.dataBlocks + 3) plan rdelPlan = .ok tref)
    (hpoints : c.points tref.id = db.table.points) (hrdels : c.rdels tref.id = db.table.rdels) : c.On sh d₁.blocks tref := by
  obtain ⟨hwithin, hpmax, hrmax⟩ := hp.within ht hs htref hpoints hrdels
  obtain ⟨hle, hfree⟩ := freeSlotFor_ok hp.slot
  have hslot := hin slot (findFree_lt hfree)
  have hu : U64_MAX = 2 ^ 64 - 1 := rfl
  obtain ⟨x, hbuild, hbuilt⟩ := built_of_flush ht (by omega) hrun
  have hon := hbuilt.rdelsOn hbuild ht.rdelWF (ht.counts hsh)
  have hblocks := hp.rdelBlocks_eq ht
  have hdata : plan.dataBlocks = (dataBins sh db.table.points).length := by rw [hp.plan_eq ht]
  have htable := hbuilt.table
  rw [hbuilt.rdelBlocks] at htable
  have htotal := ht.total_le
  refine ⟨⟨bloomK (sh.BLOOM_BYTES * 8) entries, dataBins sh db.table.points, rdelBins sh db.table.rdels,
    min (minSeqOf db.table.points) rdelPlan.minSeq, ?_, (bloomK_range _ _).1, (bloomK_range _ _).2, ?_, ?_, by omega, ?_,
      ?_, ?_,
    ?_, ?_⟩, ?_, ?_, ?_, ?_, ?_⟩
  · rw [flushTref_ok htref]
    exact htable
  · exact (Nat.min_le_left _ _).trans (minSeqOf_le _)
  · rw [flushTref_ok htref]
    exact hon
  · rw [flushTref_ok htref]
    exact hblocks
  · rw [flushTref_ok htref]
    dsimp only
    omega
  · rw [flushTref_ok htref]
    dsimp only
    omega
  · rw [flatten_dataBins, hpoints]
  · rw [rdelBins, Packing.flatten_bins, Packing.flatten_pack, hrdels]
  · rw [hpoints]
    exact MemTable.points_sorted hs
  · exact fun e he => (hwithin.points e he).2
  · intro e he
    rw [hpoints] at he
    obtain ⟨y, hy, hr, rfl⟩ := ht.point_mem he
    exact hy.val_le hr
  · intro e he
    rw [hpoints] at he
    exact hpmax e he
  · intro r hr
    rw [hrdels] at hr
    exact hrmax r hr

end FlushPlan

end Db

end Horton
