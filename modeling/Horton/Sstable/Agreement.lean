import Horton.Compact.Cursor
import Horton.Sstable.Packed
import Horton.Sstable.Rdel

/-!
# Writer and reader agree

`buildTable` is the sequence of writer calls that a flush and a compaction output make: the entries, the range
tombstones, the metadata.  It goes through exactly where `Buildable` holds (`buildTable_delivers`).  What it leaves on
the device is read back entry by entry: by point lookups at any sequence number, by the cursor, and with the block counts
that were planned (`buildTable_read_back`).
-/

namespace Horton

open BlockDev

namespace Sstable

variable (sh : Shape)

/-- Writes a whole table at `base`; every entry comes with the decision whether a block sealed on the way to it is
compressed.  Returns what `finish_meta` reports and the number of range-tombstone blocks. -/
def buildTable {σ : Type} (es : List (SstEntry × Bool)) (tail : Bool) (base k limit : Nat) (rdels : List RdelEntry)
    (rdelMinSeq : Nat) : Prog σ Error (FinishedTable × Nat) := do
  let (r, _) ← Prog.runLocal ((TableWriter.new sh base k).withBlockLimit limit) do
    pushEach sh es
    let dataBlocks ← TableWriter.sealTail sh tail
    if base + dataBlocks > U64_MAX then Prog.throw .tableTooLarge
    else
      let rdelBlocks ← writeRdelBlocks sh (base + dataBlocks) rdels
      let t ← TableWriter.finishMeta sh rdelBlocks rdelMinSeq
      return (t, rdelBlocks)
  return r

/-- The data blocks of a table. -/
def dataBins (es : List SstEntry) : List (List SstEntry) := (Packing.pack (fitsBlock sh) es).bins

/-- The range-tombstone blocks of a table. -/
def rdelBins (rdels : List RdelEntry) : List (List RdelEntry) := (Packing.pack (fitsRdel sh) rdels).bins

/-- The table fits its run and the format. -/
structure Buildable (base limit : Nat) (es : List SstEntry) (rdels : List RdelEntry) : Prop where
  points : TableWriter.PushableAll sh base limit Packing.empty es
  tail : TableWriter.TailOk sh base limit (Packing.pack (fitsBlock sh) es)
  rdelsOk : RdelsOk sh (base + (dataBins sh es).length) rdels
  ids : base + (dataBins sh es).length + (rdelBins sh rdels).length + 2 ≤ U64_MAX

variable {sh} {es : List SstEntry} {key : Bytes} {valBuf maxSeq : Nat}

theorem flatten_dataBins (es : List SstEntry) : (dataBins sh es).flatten = es := by
  rw [dataBins, Packing.flatten_bins, Packing.flatten_pack]

/-- What a completed build leaves on the device. -/
structure Built (sh : Shape) (base k : Nat) (es : List SstEntry) (rdels : List RdelEntry) (rdelMinSeq : Nat)
    (r : FinishedTable × Nat) (d : Device) : Prop where
  finished : r.1 = TableWriter.finishedTable (dataBins sh es) rdelMinSeq
  rdelBlocks : r.2 = (rdelBins sh rdels).length
  table : TableOn sh d.blocks base k (dataBins sh es) r.2 (min (minSeqOf es) rdelMinSeq)
  tombstones : ∀ i b, (rdelBins sh rdels)[i]? = some b →
    sealRdel sh (encodeRdels b) b.length = .ok (d.blocks (base + (dataBins sh es).length + i))

theorem buildTable_delivers {σ : Type} {s : σ} {d : Device} (sh : Shape) (es : List (SstEntry × Bool)) (tail : Bool)
    (base k limit : Nat) (rdels : List RdelEntry) (rdelMinSeq : Nat) (hbase : base ≤ U64_MAX)
    (hr : ∀ e ∈ es, TableWriter.InRange e.1) :
    (buildTable sh es tail base k limit rdels rdelMinSeq).wp (Prog.Delivers d (Buildable sh base limit (es.map Prod.fst) rdels)
      fun r s' d' => s' = s ∧ Buildable sh base limit (es.map Prod.fst) rdels ∧
        Built sh base k (es.map Prod.fst) rdels rdelMinSeq r d') s d := by
  have hnew := TableWriter.staged_new sh base k limit hbase
  have hd : TableWriter.Written sh base [] d := fun i b hi => absurd hi (by simp)
  rw [buildTable]
  refine Prog.delivers_bind (Prog.delivers_runLocal (P := fun r _ d' => Buildable sh base limit (es.map Prod.fst) rdels ∧
    Built sh base k (es.map Prod.fst) rdels rdelMinSeq r d') ?_) (fun hb => hb) ?_
  swap
  · rintro ⟨r, w⟩ s' d' ⟨rfl, hb⟩
    exact Prog.delivers_pure ⟨rfl, hb⟩
  refine Prog.delivers_bind (TableWriter.pushEach_delivers es hnew hd hr) (fun hb => hb.points) ?_
  rintro _ w₁ d₁ ⟨hpoints, h₁, hd₁⟩
  refine Prog.delivers_bind (TableWriter.sealTail_delivers h₁ hd₁ tail) (fun hb => hb.tail) ?_
  rintro n w₂ d₂ ⟨htail, hn, h₂, hd₂⟩
  have hbins : ((es.map Prod.fst).foldl (Packing.push (fitsBlock sh)) Packing.empty).bins =
    dataBins sh (es.map Prod.fst) := rfl
  rw [hbins] at hn h₂ hd₂
  subst hn
  split
  · refine Prog.delivers_throw fun hb => ?_
    have := hb.ids
    omega
  refine Prog.delivers_bind (writeRdelBlocks_delivers rdels) (fun hb => hb.rdelsOk) ?_
  rintro n w₃ d₃ ⟨rfl, hrdels, hn, hd₃⟩
  have hrbins : (Packing.pack (fitsRdel sh) rdels).bins = rdelBins sh rdels := rfl
  rw [hrbins] at hn hd₃
  subst hn
  have hd₃' : TableWriter.Written sh base (dataBins sh (es.map Prod.fst)) d₃ := by
    intro i b hi
    have hlt := (List.getElem?_eq_some_iff.mp hi).1
    rw [hd₃.frame (base + i) (by omega)]
    exact hd₂ i b hi
  refine Prog.delivers_bind (TableWriter.finishMeta_delivers h₂ hd₃' _ rdelMinSeq) (fun hb => hb.ids) ?_
  rintro t w₄ d₄ ⟨rfl, htable, hframe⟩
  refine Prog.delivers_pure ⟨⟨hpoints, htail, hrdels, htable.ids⟩, rfl, rfl, ?_, fun i b hi => ?_⟩
  · rwa [flatten_dataBins] at htable
  · have hlt := (List.getElem?_eq_some_iff.mp hi).1
    rw [hframe _ (by omega)]
    exact hd₃.block i b hi

/-! ### Reading back -/

/-- The answer of a lookup at `maxSeq`: the version of the key with the highest sequence number up to it. -/
def Answers (es : List SstEntry) (key : Bytes) (valBuf maxSeq : Nat) (o : Except Error Lookup) : Prop :=
  (∀ e ∈ es, e.key = key → e.seq ≤ maxSeq → (∀ x ∈ es, x.key = key → x.seq ≤ maxSeq → x.seq ≤ e.seq) →
      o = found e valBuf) ∧
    ((∀ e ∈ es, e.key = key → maxSeq < e.seq) → o = .ok .missing)

/-- In a sorted list the first version a read may observe is the newest. -/
theorem visible_newest (hs : es.Pairwise SstEntry.Before) {e : SstEntry} (he : e ∈ es) (hkey : e.key = key)
    (hseq : e.seq ≤ maxSeq) (hmax : ∀ x ∈ es, x.key = key → x.seq ≤ maxSeq → x.seq ≤ e.seq) :
    visible es key maxSeq = some e := by
  rw [visible, List.find?_eq_some_iff_append]
  obtain ⟨a, b, rfl⟩ := List.append_of_mem he
  refine ⟨by simp [hkey, hseq], a, b, rfl, fun x hx => ?_⟩
  rw [Bool.not_eq_true', decide_eq_false_iff_not]
  rintro ⟨hxkey, hxseq⟩
  have hle := hmax x (by simp [hx]) hxkey hxseq
  -- An earlier version of the key has a higher number.
  rw [List.pairwise_append] at hs
  rcases hs.2.2 x hx e (by simp) with hlt | ⟨-, hlt⟩
  · rw [hxkey, hkey] at hlt
    exact lt_irrefl _ hlt
  · omega

theorem answers_tableAnswer (hs : es.Pairwise SstEntry.Before) (key : Bytes) (valBuf maxSeq : Nat) :
    Answers es key valBuf maxSeq (tableAnswer es key valBuf maxSeq) := by
  constructor
  · intro e he hkey hseq hmax
    exact tableAnswer_some (visible_newest hs he hkey hseq hmax)
  · intro hnone
    apply tableAnswer_none
    rw [visible, List.find?_eq_none]
    intro e he hc
    obtain ⟨hkey, hseq⟩ := of_decide_eq_true hc
    have := hnone e he hkey
    omega

theorem minSeqOf_le (es : List SstEntry) : minSeqOf es ≤ U64_MAX := by
  induction es using List.reverseRecOn with
  | nil => exact le_rfl
  | append_singleton es e ih =>
    rw [minSeqOf_concat]
    omega

/-- Every entry that was pushed fits the format. -/
theorem pushableAll_mem {base limit : Nat} {p : Packing SstEntry} (h : TableWriter.PushableAll sh base limit p es) :
    ∀ e ∈ es, Encodable sh e ∧ fitsBlock sh [] e = true := by
  induction es generalizing p with
  | nil => simp
  | cons x es ih =>
    intro e he
    rcases List.mem_cons.mp he with rfl | he
    · exact ⟨h.1.encodable, h.1.fits_nil⟩
    · exact ih h.2 e he

theorem pushableAll_rdel_mem {base limit : Nat} {p : Packing RdelEntry} {rdels : List RdelEntry}
    (h : RdelWriter.PushableAll sh base limit p rdels) : ∀ r ∈ rdels, fitsRdel sh [] r = true := by
  induction rdels generalizing p with
  | nil => simp
  | cons x rdels ih =>
    intro r hr
    rcases List.mem_cons.mp hr with rfl | hr
    · exact h.1.fits_nil
    · exact ih h.2 r hr

/-- The section's length fits its field in the footer. -/
theorem RdelsOk.length_le {base : Nat} {rdels : List RdelEntry} (h : RdelsOk sh base rdels) :
    (rdelBins sh rdels).length ≤ U32_MAX := by
  unfold rdelBins Packing.bins
  split
  · rename_i hnil
    obtain rfl := (Packing.current_eq_nil_iff rdels).mp hnil
    simp [Packing.empty]
  · rename_i hne
    have := (h.2 hne).1
    rw [List.length_append, List.length_singleton]
    omega

/-- The plans count the blocks of the packings. -/
theorem Buildable.plans {base limit : Nat} {rdels : List RdelEntry} (h : Buildable sh base limit es rdels) :
    (∃ plan, planTable sh es = .ok plan ∧ plan.dataBlocks = (dataBins sh es).length) ∧
      ∃ plan, planRdelBlocks sh rdels = .ok plan ∧ plan.blocks = (rdelBins sh rdels).length := by
  refine ⟨⟨_, planTable_eq fun e he => ?_, rfl⟩, planRdelBlocks_eq (pushableAll_rdel_mem h.rdelsOk.1)⟩
  obtain ⟨henc, hfit⟩ := pushableAll_mem h.points e he
  exact ⟨entrySizes_of_encodable henc, hfit, henc.key_le⟩

/-- A finished table gives back what was pushed, in every way it is read. -/
theorem Built.read_back {base k rdelMinSeq : Nat} {rdels : List RdelEntry} {r : FinishedTable × Nat} {d : Device}
    (h : Built sh base k es rdels rdelMinSeq r d) (hr : r.2 ≤ U32_MAX) (hs : es.Pairwise SstEntry.Before)
    (hk : 0 < k ∧ k < 256) :
    (∃ reader, (TableReader.open_ sh (base + r.1.dataBlocks + r.2 + 2)).eval d.blocks = .ok reader ∧
        ∀ key valBuf maxSeq, Answers es key valBuf maxSeq ((reader.lookupAt sh key valBuf maxSeq).eval d.blocks)) ∧
      ∀ tref : TableRef, tref.firstBlock = base → tref.blockCount = r.1.dataBlocks + r.2 + 3 → tref.rdelBlocks = r.2 →
        base + tref.blockCount ≤ U64_MAX → (∀ e ∈ es, tref.firstKey ≤ e.key) →
        (∀ e ∈ es, (wireVal e).length ≤ sh.VAL_MAX) → (entryStream sh tref).eval d.blocks = .ok (es.map stored) := by
  have hblocks : r.1.dataBlocks = (dataBins sh es).length := by rw [h.finished]; rfl
  have hflat : (dataBins sh es).flatten = es := flatten_dataBins es
  have hsorted : (dataBins sh es).flatten.Pairwise fun x y => x.key ≤ y.key := by
    rw [hflat]
    exact hs.imp SstEntry.Before.key_le
  rw [hblocks]
  constructor
  · have hmin := minSeqOf_le es
    obtain ⟨reader, hopen, hindex, hbloom, hk', -⟩ := TableReader.open_spec h.table hk hr (by omega)
    refine ⟨reader, hopen, fun key valBuf maxSeq => ?_⟩
    rw [TableReader.lookupAt_spec h.table hsorted hindex hbloom hk', hflat]
    exact answers_tableAnswer hs key valBuf maxSeq
  · intro tref hfirst hcount hrdel hstop hlow hval
    rw [Cursor.entryStream_spec h.table hsorted (by rwa [hflat]) ⟨hfirst, hcount, hrdel, hcount ▸ hstop⟩, hflat]
    congr 2
    cases es with
    | nil => rfl
    | cons e es => exact List.dropWhile_cons_of_neg (by simpa using hlow e (by simp))

/-- Writer and reader agree: whatever the splits and the compression decisions, a build that returns has written a table
that answers every lookup with the newest version observed, streams its entries in order, and has the planned blocks.
The numbers of an entry, the bloom count and the block ids are machine words; a table lies on a device of at most
`U64_MAX` blocks, and the callers push no value above `VAL_MAX`. -/
theorem buildTable_read_back (sh : Shape) (es : List (SstEntry × Bool)) (tail : Bool) (base k limit : Nat)
    (rdels : List RdelEntry) (rdelMinSeq : Nat) (d : Device) (hs : (es.map Prod.fst).Pairwise SstEntry.Before)
    (hbase : base ≤ U64_MAX) (hr : ∀ e ∈ es, TableWriter.InRange e.1) (hk : 0 < k ∧ k < 256) (t : FinishedTable) (n : Nat)
    (d' : Device) (hrun : buildTable sh es tail base k limit rdels rdelMinSeq () d = (.ok (t, n), (), d')) :
    (∃ reader, (TableReader.open_ sh (base + t.dataBlocks + n + 2)).eval d'.blocks = .ok reader ∧
        ∀ key valBuf maxSeq, Answers (es.map Prod.fst) key valBuf maxSeq
          ((reader.lookupAt sh key valBuf maxSeq).eval d'.blocks)) ∧
      (∀ tref : TableRef, tref.firstBlock = base → tref.blockCount = t.dataBlocks + n + 3 → tref.rdelBlocks = n →
        base + tref.blockCount ≤ U64_MAX → (∀ e ∈ es, tref.firstKey ≤ e.1.key) →
        (∀ e ∈ es, (wireVal e.1).length ≤ sh.VAL_MAX) →
        (entryStream sh tref).eval d'.blocks = .ok ((es.map Prod.fst).map stored) ∧
          ((∀ e ∈ es, e.1.tombstone = true → e.1.val = [] ∧ e.1.expireAt = 0) →
            (entryStream sh tref).eval d'.blocks = .ok (es.map Prod.fst))) ∧
      (∃ plan, planTable sh (es.map Prod.fst) = .ok plan ∧ plan.dataBlocks = t.dataBlocks) ∧
      ∃ plan, planRdelBlocks sh rdels = .ok plan ∧ plan.blocks = n := by
  have hwp := buildTable_delivers (s := ()) (d := d) sh es tail base k limit rdels rdelMinSeq hbase hr
  unfold Prog.wp at hwp
  rw [hrun] at hwp
  obtain ⟨-, hbuild, hbuilt⟩ := hwp.of_ok (t, n) rfl
  have hn : n = (rdelBins sh rdels).length := hbuilt.rdelBlocks
  have hdata : t.dataBlocks = (dataBins sh (es.map Prod.fst)).length := congrArg FinishedTable.dataBlocks hbuilt.finished
  obtain ⟨hlookup, hstream⟩ := hbuilt.read_back (hn ▸ hbuild.rdelsOk.length_le) hs hk
  refine ⟨hlookup, ?_, ?_, ?_⟩
  · intro tref hfirst hcount hrdel hstop hlow hval
    have hall := hstream tref hfirst hcount hrdel hstop (List.forall_mem_map.mpr hlow) (List.forall_mem_map.mpr hval)
    refine ⟨hall, fun hcanon => ?_⟩
    rw [hall, List.map_congr_left (g := id), List.map_id]
    intro e he
    obtain ⟨x, hx, rfl⟩ := List.mem_map.mp he
    exact stored_eq_self (hcanon x hx)
  · rw [hdata]
    exact hbuild.plans.1
  · rw [hn]
    exact hbuild.plans.2

/-- Two versions of a key, the older one a tombstone, and a range tombstone. -/
def twoVersions : List (SstEntry × Bool) := [(⟨[1], [7], 5, false, 0⟩, true), (⟨[1], [], 3, true, 0⟩, false)]

theorem twoVersions_buildable : Buildable Shape.small 0 1 (twoVersions.map Prod.fst) [⟨[2], [3], 4⟩] := by
  have hfit : ∀ e ∈ twoVersions.map Prod.fst, fitsBlock Shape.small [] e = true := by decide
  have hpack : Packing.pack (fitsBlock Shape.small) (twoVersions.map Prod.fst) = ⟨[], twoVersions.map Prod.fst⟩ := by decide
  have hrpack : Packing.pack (fitsRdel Shape.small) [⟨[2], [3], 4⟩] = ⟨[], [⟨[2], [3], 4⟩]⟩ := by decide
  constructor
  · refine ⟨⟨?_, hfit _ (by simp [twoVersions]), by decide, ?_⟩, ⟨?_, hfit _ (by simp [twoVersions]), by decide, ?_⟩, trivial⟩
    · constructor <;> decide
    · exact fun hc => absurd hc (by decide)
    · constructor <;> decide
    · exact fun hc => absurd hc (by decide)
  · rw [hpack]
    exact fun _ => ⟨by decide, by decide, by decide⟩
  · refine ⟨⟨⟨by decide, by decide, by decide, fun hc => absurd hc (by decide)⟩, trivial⟩, ?_⟩
    rw [hrpack]
    exact fun _ => ⟨by decide, by decide, by decide⟩
  · decide

/-- A read between the two versions observes the tombstone. -/
theorem buildTable_read_back_twoVersions : ∃ t n d', buildTable Shape.small twoVersions true 0 1 1 [⟨[2], [3], 4⟩] 4 ()
      ⟨fun _ => [], [], []⟩ = (.ok (t, n), (), d') ∧
    ∃ reader, (TableReader.open_ Shape.small (0 + t.dataBlocks + n + 2)).eval d'.blocks = .ok reader ∧
      (reader.lookupAt Shape.small [1] 16 4).eval d'.blocks = .ok (.tombstone 3) := by
  have hs : (twoVersions.map Prod.fst).Pairwise SstEntry.Before := by simp [twoVersions, SstEntry.Before]
  have hr : ∀ e ∈ twoVersions, TableWriter.InRange e.1 := by simp [twoVersions, TableWriter.InRange, U64_MAX]
  have hwp := buildTable_delivers (s := ()) (d := ⟨fun _ => [], [], []⟩) Shape.small twoVersions true 0 1 1
    [⟨[2], [3], 4⟩] 4 (by decide) hr
  obtain ⟨⟨t, n⟩, hok, -, -⟩ := hwp.of_healthy rfl twoVersions_buildable
  refine ⟨t, n, _, Prod.ext hok rfl, ?_⟩
  obtain ⟨⟨reader, hopen, hlookup⟩, -⟩ := buildTable_read_back Shape.small twoVersions true 0 1 1 [⟨[2], [3], 4⟩] 4
    ⟨fun _ => [], [], []⟩ hs (by decide) hr (by decide) t n _ (Prod.ext hok rfl)
  refine ⟨reader, hopen, ?_⟩
  exact (hlookup [1] 16 4).1 ⟨[1], [], 3, true, 0⟩ (by simp [twoVersions]) rfl (by decide) (by simp [twoVersions])

end Sstable

end Horton
