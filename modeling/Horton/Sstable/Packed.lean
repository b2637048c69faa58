import Horton.Lib.Packing
import Horton.Sstable.Extent
import Horton.Sstable.Lookup

/-!
# What the writer leaves behind

`TableWriter` packs its entries greedily.  `Staged` ties its state to the packing of the entries pushed so far, and
`Written` says that the closed blocks of the packing are on the device.  Every step is described completely: it goes
through under a condition on the packing, or the device stops it (`push_delivers`, `sealTail_delivers`,
`finishMeta_delivers`).
-/

namespace Horton

open BlockDev

namespace Sstable

/-- The packing rule of `push` and `plan_table`. -/
def fitsBlock (sh : Shape) (b : List SstEntry) (e : SstEntry) : Bool :=
  entryFits sh (encodeEntries b).length b.length (encodeEntry e).length

variable {sh : Shape}

theorem fitsBlock_iff {b : List SstEntry} {e : SstEntry} : fitsBlock sh b e = true ↔
    b.length < MAX_ENTRIES_PER_BLOCK ∧
      (encodeEntries b).length + (encodeEntry e).length + ((b.length / 16 + 1) * 2 + 6) ≤ sh.BLOCK := by
  unfold fitsBlock entryFits RESTART_INTERVAL
  split
  · simp
    omega
  · split
    · simp
      omega
    · simp
      omega

/-- An entry that fits behind others fits an empty block. -/
theorem fitsBlock_nil {b : List SstEntry} {e : SstEntry} (h : fitsBlock sh b e = true) : fitsBlock sh [] e = true := by
  rw [fitsBlock_iff] at h ⊢
  simp only [encodeEntries, List.flatMap_nil, List.length_nil] at h ⊢
  omega

/-- All entries pushed so far. -/
def pushed (p : Packing SstEntry) : List SstEntry := p.closed.flatten ++ p.current

theorem pushed_push (fits : List SstEntry → SstEntry → Bool) (p : Packing SstEntry) (e : SstEntry) :
    pushed (p.push fits e) = pushed p ++ [e] := Packing.flatten_push p e

theorem pushed_sealed (p : Packing SstEntry) : pushed ⟨p.closed ++ [p.current], []⟩ = pushed p := by simp [pushed]

/-- The key of the last entry. -/
def lastKeyOf (es : List SstEntry) : Bytes := (es.getLast?.map (·.key)).getD []

def minSeqOf (es : List SstEntry) : Nat := es.foldl (fun m e => min m e.seq) U64_MAX

theorem maxSeqOf_concat (es : List SstEntry) (e : SstEntry) : maxSeqOf (es ++ [e]) = max (maxSeqOf es) e.seq := by
  rw [maxSeqOf, List.foldl_append]
  rfl

theorem minSeqOf_concat (es : List SstEntry) (e : SstEntry) : minSeqOf (es ++ [e]) = min (minSeqOf es) e.seq := by
  rw [minSeqOf, List.foldl_append]
  rfl

theorem lastKeyOf_concat (es : List SstEntry) (e : SstEntry) : lastKeyOf (es ++ [e]) = e.key := by simp [lastKeyOf]

/-- The first key, as the writer keeps it: an empty one stands for none. -/
theorem firstKeyOf_concat {es : List SstEntry} {e : SstEntry} (h : ∀ x ∈ es, x.key ≠ []) :
    (if firstKeyOf es = [] then e.key else firstKeyOf es) = firstKeyOf (es ++ [e]) := by
  cases es with
  | nil => rfl
  | cons x es => exact if_neg (h x (by simp))

end Sstable

open Sstable

namespace TableWriter

variable {sh : Shape} {base k limit : Nat} {p : Packing SstEntry} {w : TableWriter} {d : Device}

/-- The writer has packed its entries as `p`. -/
structure Staged (sh : Shape) (base k limit : Nat) (p : Packing SstEntry) (w : TableWriter) : Prop where
  base_eq : w.base = base
  k_eq : w.k = k
  limit_eq : w.dataLimit = limit
  data_take : w.data.take w.payload = encodeEntries p.current
  payload_eq : w.payload = (encodeEntries p.current).length
  n_eq : w.n = p.current.length
  restarts_eq : w.restarts = restartsOf p.current
  index_eq : w.index = indexFrom base p.closed
  bloom_eq : w.bloom = bloomOf sh k (pushed p)
  dataBlocks_eq : w.dataBlocks = p.closed.length
  entryCount_eq : w.entryCount = (pushed p).length
  blockFirst_eq : w.blockFirst = firstKeyOf p.current
  blockMaxSeq_eq : w.blockMaxSeq = maxSeqOf p.current
  firstKey_eq : w.firstKey = firstKeyOf (pushed p)
  lastKey_eq : w.lastKey = lastKeyOf (pushed p)
  maxSeq_eq : w.maxSeq = maxSeqOf (pushed p)
  minSeq_eq : w.minSeq = minSeqOf (pushed p)
  encodable : ∀ e ∈ pushed p, Encodable sh e
  block_ok : ∀ b ∈ p.bins, BlockOk sh b
  ids : base + p.closed.length ≤ U64_MAX + 1
  fits : (indexFrom base p.closed).length ≤ bodyEnd sh

/-- The closed blocks are on the device. -/
def Written (sh : Shape) (base : Nat) (bs : List (List SstEntry)) (d : Device) : Prop :=
  ∀ i b, bs[i]? = some b → Holds sh (d.blocks (base + i)) b

theorem staged_new (sh : Shape) (base k limit : Nat) (hbase : base ≤ U64_MAX) :
    Staged sh base k limit Packing.empty ((TableWriter.new sh base k).withBlockLimit limit) where
  base_eq := rfl
  k_eq := rfl
  limit_eq := rfl
  data_take := rfl
  payload_eq := rfl
  n_eq := rfl
  restarts_eq := rfl
  index_eq := rfl
  bloom_eq := rfl
  dataBlocks_eq := rfl
  entryCount_eq := rfl
  blockFirst_eq := rfl
  blockMaxSeq_eq := rfl
  firstKey_eq := rfl
  lastKey_eq := rfl
  maxSeq_eq := rfl
  minSeq_eq := rfl
  encodable := by simp [pushed, Packing.empty]
  block_ok := by simp [Packing.bins, Packing.empty]
  ids := by simp [Packing.empty]; omega
  fits := by simp [Packing.empty, indexFrom]

/-! ### Sealing -/

/-- The open block can be sealed. -/
def Sealable (sh : Shape) (base : Nat) (p : Packing SstEntry) : Prop :=
  base + p.closed.length ≤ U64_MAX ∧ (indexFrom base (p.closed ++ [p.current])).length ≤ bodyEnd sh

theorem sealData_ok {buf : Bytes} {b : List SstEntry} (hb : BlockOk sh b) (hbuf : buf.take (encodeEntries b).length = encodeEntries b)
    (compressed : Bool) :
    ∃ block, sealData sh buf (encodeEntries b).length (restartsOf b) compressed = .ok block ∧ Holds sh block b := by
  obtain ⟨hle, htail⟩ := hb.length_le
  have hbody : dataBody sh buf (encodeEntries b).length (restartsOf b) = .ok (logicalBody sh b) := by
    unfold dataBody
    dsimp only
    rw [if_neg (by omega)]
    unfold rstartOf at hle
    rw [if_neg (by omega), hbuf]
    rfl
  unfold sealData
  rw [hbody]
  cases compressed with
  | false => exact ⟨_, rfl, Or.inl rfl⟩
  | true =>
    cases hc : compress sh.BLOCK (logicalBody sh b) with
    | none =>
      refine ⟨withCrc (logicalBody sh b), ?_, Or.inl rfl⟩
      simp [hc, bind, Except.bind, pure, Except.pure]
    | some c =>
      refine ⟨withCrc (flagCompressed sh c), ?_, Or.inr ⟨c, hc, rfl⟩⟩
      simp [hc, bind, Except.bind, pure, Except.pure]

theorem appendIndex_ok {index key : Bytes} {id maxSeq : Nat} (hkey : key.length ≤ U16_MAX)
    (hfit : index.length + (key.length + 18) ≤ bodyEnd sh) :
    appendIndex sh index key id maxSeq = .ok (index ++ encodeIndexEntry key id maxSeq) := by
  unfold bodyEnd at hfit
  unfold appendIndex
  rw [if_neg (by omega), if_neg (by omega)]

theorem appendIndex_full {index key : Bytes} {id maxSeq : Nat} (hkey : key.length ≤ U16_MAX)
    (hfull : ¬ index.length + (key.length + 18) ≤ bodyEnd sh) :
    appendIndex sh index key id maxSeq = .error .tableTooLarge := by
  unfold bodyEnd at hfull
  unfold appendIndex
  rw [if_neg (by omega), if_pos (by omega)]

theorem length_indexFrom_concat (base : Nat) (bs : List (List SstEntry)) (b : List SstEntry) :
    (indexFrom base (bs ++ [b])).length = (indexFrom base bs).length + ((firstKeyOf b).length + 18) := by
  rw [indexFrom_append, List.length_append, indexFrom, indexFrom, List.append_nil, length_encodeIndexEntry]

theorem mem_bins_current (hne : p.current ≠ []) : p.current ∈ p.bins := by
  rw [Packing.bins, if_neg hne]
  simp

theorem Written.put {bs : List (List SstEntry)} {b : List SstEntry} {block : Bytes} (h : Written sh base bs d)
    (hb : Holds sh block b) : Written sh base (bs ++ [b]) (d.put (base + bs.length) block block).advance := by
  intro i x hi
  rw [Device.advance_blocks]
  by_cases hlt : i < bs.length
  · rw [List.getElem?_append_left hlt] at hi
    rw [Device.put_blocks_ne _ _ _ (by omega)]
    exact h i x hi
  · rw [List.getElem?_append_right (by omega)] at hi
    have hi0 : i = bs.length := by
      have := (List.getElem?_eq_some_iff.mp hi).1
      rw [List.length_singleton] at this
      omega
    subst hi0
    simp only [Nat.sub_self, List.getElem?_cons_zero, Option.some.injEq] at hi
    rw [Device.put_blocks_same, ← hi]
    exact hb

/-- The staging state behind a sealed block. -/
theorem Staged.nextBlock (h : Staged sh base k limit p w) (hne : p.current ≠ []) (hs : Sealable sh base p) (block : Bytes) :
    Staged sh base k limit ⟨p.closed ++ [p.current], []⟩ (({ w with data := block } : TableWriter).nextBlock sh
      (w.index ++ encodeIndexEntry w.blockFirst (w.base + w.dataBlocks) w.blockMaxSeq)) where
  base_eq := h.base_eq
  k_eq := h.k_eq
  limit_eq := h.limit_eq
  data_take := rfl
  payload_eq := rfl
  n_eq := rfl
  restarts_eq := rfl
  index_eq := by
    show w.index ++ encodeIndexEntry w.blockFirst (w.base + w.dataBlocks) w.blockMaxSeq = _
    rw [h.index_eq, h.blockFirst_eq, h.blockMaxSeq_eq, h.base_eq, h.dataBlocks_eq, indexFrom_append, indexFrom, indexFrom,
      List.append_nil]
  bloom_eq := by
    rw [pushed_sealed]
    exact h.bloom_eq
  dataBlocks_eq := by
    show w.dataBlocks + 1 = _
    rw [h.dataBlocks_eq]
    simp
  entryCount_eq := by
    rw [pushed_sealed]
    exact h.entryCount_eq
  blockFirst_eq := rfl
  blockMaxSeq_eq := rfl
  firstKey_eq := by
    rw [pushed_sealed]
    exact h.firstKey_eq
  lastKey_eq := by
    rw [pushed_sealed]
    exact h.lastKey_eq
  maxSeq_eq := by
    rw [pushed_sealed]
    exact h.maxSeq_eq
  minSeq_eq := by
    rw [pushed_sealed]
    exact h.minSeq_eq
  encodable := by
    rw [pushed_sealed]
    exact h.encodable
  block_ok := by
    have := h.block_ok
    rwa [Packing.bins, if_neg hne] at this
  ids := by
    have := hs.1
    simp only [List.length_append, List.length_singleton]
    omega
  fits := hs.2

theorem sealCurrent_delivers (h : Staged sh base k limit p w) (hne : p.current ≠ []) (hd : Written sh base p.closed d)
    (compressed : Bool) : (sealCurrent sh compressed).wp (Prog.Delivers d (Sealable sh base p) fun _ w' d' =>
      Sealable sh base p ∧ Staged sh base k limit ⟨p.closed ++ [p.current], []⟩ w' ∧
        Written sh base (p.closed ++ [p.current]) d') w d := by
  have hb := h.block_ok _ (mem_bins_current hne)
  have hbase := h.base_eq
  have hblocks := h.dataBlocks_eq
  have hkey : w.blockFirst.length ≤ U16_MAX := by
    rw [h.blockFirst_eq]
    exact hb.firstKey.2
  have hindex : (indexFrom base (p.closed ++ [p.current])).length = w.index.length + (w.blockFirst.length + 18) := by
    rw [length_indexFrom_concat, h.index_eq, h.blockFirst_eq]
  obtain ⟨block, hblock, hholds⟩ := sealData_ok hb (by rw [← h.payload_eq, h.data_take]) compressed
  rw [← h.payload_eq, ← h.restarts_eq] at hblock
  rw [sealCurrent, Prog.wp_bind, Prog.wp_get, Prog.andThen_ok]
  split
  · refine Prog.delivers_throw fun hs => ?_
    have := hs.1
    omega
  rename_i hid
  rw [Prog.wp_bind, hblock, Prog.wp_ofExcept_ok, Prog.andThen_ok, Prog.wp_bind, Prog.wp_set, Prog.andThen_ok]
  refine Prog.delivers_bind (Prog.delivers_writeBlock _ _ _) (fun _ => trivial) ?_
  rintro _ w' d' ⟨rfl, rfl⟩
  rw [Prog.wp_bind]
  by_cases hfit : w.index.length + (w.blockFirst.length + 18) ≤ bodyEnd sh
  · have hs : Sealable sh base p := ⟨by omega, by omega⟩
    rw [appendIndex_ok hkey hfit, Prog.wp_ofExcept_ok, Prog.andThen_ok]
    refine Prog.delivers_pure ⟨hs, h.nextBlock hne hs block, ?_⟩
    show Written sh base _ (d.put (w.base + w.dataBlocks) block block).advance
    rw [hbase, hblocks]
    exact hd.put hholds
  · rw [appendIndex_full hkey hfit]
    exact fun _ hs => hfit (hindex ▸ hs.2)

/-! ### Pushing -/

/-- The entry fits the format, a block of its own and its restart offset, and an open block it does not fit can be
sealed inside the run. -/
structure Pushable (sh : Shape) (base limit : Nat) (p : Packing SstEntry) (e : SstEntry) : Prop where
  encodable : Encodable sh e
  fits_nil : fitsBlock sh [] e = true
  restart_le : ∀ r ∈ restartsOf (p.push (fitsBlock sh) e).current, r ≤ U16_MAX
  sealable : fitsBlock sh p.current e = false → p.closed.length + 2 ≤ limit ∧ Sealable sh base p

/-- A block with one more entry that fits. -/
theorem blockOk_concat {b : List SstEntry} {e : SstEntry} (hb : b = [] ∨ BlockOk sh b) (he : Encodable sh e)
    (hfit : fitsBlock sh b e = true) (hr : ∀ r ∈ restartsOf (b ++ [e]), r ≤ U16_MAX) : BlockOk sh (b ++ [e]) where
  ne_nil := by simp
  room := by
    obtain ⟨-, hroom⟩ := fitsBlock_iff.mp hfit
    rw [encodeEntries_append, List.length_append, List.length_append, List.length_singleton]
    have hone : (encodeEntries [e]).length = (encodeEntry e).length := by simp [encodeEntries]
    omega
  count_le := by
    obtain ⟨hcount, -⟩ := fitsBlock_iff.mp hfit
    rw [List.length_append, List.length_singleton]
    omega
  restart_le := hr
  encodable := by
    intro x hx
    rcases List.mem_append.mp hx with hx | hx
    · rcases hb with rfl | hb
      · simp at hx
      · exact hb.encodable x hx
    · exact (List.mem_singleton.mp hx) ▸ he

theorem Staged.current_ok (h : Staged sh base k limit p w) : p.current = [] ∨ BlockOk sh p.current := by
  by_cases hne : p.current = []
  · exact Or.inl hne
  · exact Or.inr (h.block_ok _ (mem_bins_current hne))

/-- The end of `push`: the entry joins the open block. -/
theorem Staged.stageEntry {e : SstEntry} (h : Staged sh base k limit p w) (he : Encodable sh e)
    (hfit : fitsBlock sh p.current e = true) (hr : ∀ r ∈ restartsOf (p.current ++ [e]), r ≤ U16_MAX) :
    Staged sh base k limit ⟨p.closed, p.current ++ [e]⟩ (w.stageEntry e (encodeEntry e).length) := by
  have hpushed : pushed ⟨p.closed, p.current ++ [e]⟩ = pushed p ++ [e] := by simp [pushed]
  have hkeys : ∀ x ∈ pushed p, x.key ≠ [] := fun x hx => (h.encodable x hx).key_ne
  have hcur : ∀ x ∈ p.current, x.key ≠ [] := fun x hx => hkeys x (List.mem_append_right _ hx)
  have hbins : Packing.bins ⟨p.closed, p.current ++ [e]⟩ = p.closed ++ [p.current ++ [e]] := by
    rw [Packing.bins, if_neg (by simp)]
  constructor
  case data_take =>
    show (Bytes.splice w.data w.payload (encodeEntry e)).take (w.payload + (encodeEntry e).length) = _
    have hlen : (w.data.take w.payload).length = w.payload := by rw [h.data_take, h.payload_eq]
    rw [Bytes.splice, List.take_left' (by rw [List.length_append, hlen]), h.data_take, encodeEntries_append]
    simp [encodeEntries]
  case payload_eq =>
    show w.payload + (encodeEntry e).length = _
    rw [h.payload_eq, encodeEntries_append, List.length_append]
    simp [encodeEntries]
  case n_eq =>
    show w.n + 1 = _
    rw [h.n_eq]
    simp
  case restarts_eq =>
    show (if w.n % RESTART_INTERVAL = 0 then w.restarts ++ [w.payload] else w.restarts) = _
    rw [restartsOf_concat, h.n_eq, h.restarts_eq, h.payload_eq]
  case bloom_eq =>
    show bloomAdd w.bloom e.key w.k = _
    rw [hpushed, bloomOf_concat, h.bloom_eq, h.k_eq]
  case entryCount_eq =>
    show w.entryCount + 1 = _
    rw [hpushed, h.entryCount_eq]
    simp
  case blockFirst_eq =>
    show (if w.blockFirst = [] then e.key else w.blockFirst) = _
    rw [h.blockFirst_eq, firstKeyOf_concat hcur]
  case blockMaxSeq_eq =>
    show max w.blockMaxSeq e.seq = _
    rw [maxSeqOf_concat, h.blockMaxSeq_eq]
  case firstKey_eq =>
    show (if w.firstKey = [] then e.key else w.firstKey) = _
    rw [hpushed, h.firstKey_eq, firstKeyOf_concat hkeys]
  case lastKey_eq =>
    show e.key = _
    rw [hpushed, lastKeyOf_concat]
  case maxSeq_eq =>
    show max w.maxSeq e.seq = _
    rw [hpushed, maxSeqOf_concat, h.maxSeq_eq]
  case minSeq_eq =>
    show min w.minSeq e.seq = _
    rw [hpushed, minSeqOf_concat, h.minSeq_eq]
  case encodable =>
    intro x hx
    rw [hpushed] at hx
    rcases List.mem_append.mp hx with hx | hx
    · exact h.encodable x hx
    · exact (List.mem_singleton.mp hx) ▸ he
  case block_ok =>
    intro b hb
    rw [hbins] at hb
    rcases List.mem_append.mp hb with hb | hb
    · refine h.block_ok b ?_
      unfold Packing.bins
      split
      · exact hb
      · exact List.mem_append_left _ hb
    · rw [List.mem_singleton.mp hb]
      exact blockOk_concat h.current_ok he hfit hr
  case base_eq => exact h.base_eq
  case k_eq => exact h.k_eq
  case limit_eq => exact h.limit_eq
  case index_eq => exact h.index_eq
  case dataBlocks_eq => exact h.dataBlocks_eq
  case ids => exact h.ids
  case fits => exact h.fits

/-- The numbers of an entry are 64-bit words. -/
def InRange (e : SstEntry) : Prop := e.seq ≤ U64_MAX ∧ e.expireAt ≤ U64_MAX

/-- What a completed push leaves. -/
def Pushed (sh : Shape) (base k limit : Nat) (p : Packing SstEntry) (e : SstEntry) (w : TableWriter) (d : Device) : Prop :=
  Pushable sh base limit p e ∧ Staged sh base k limit (p.push (fitsBlock sh) e) w ∧
    Written sh base (p.push (fitsBlock sh) e).closed d

/-- The end of `push`, with the open block of `q` that takes the entry. -/
private theorem stage_delivers {q : Packing SstEntry} {e : SstEntry} (h : Staged sh base k limit q w)
    (hd : Written sh base q.closed d) (he : Encodable sh e) (hfit : fitsBlock sh q.current e = true)
    (hq : p.push (fitsBlock sh) e = ⟨q.closed, q.current ++ [e]⟩)
    (hseal : fitsBlock sh p.current e = false → p.closed.length + 2 ≤ limit ∧ Sealable sh base p) (sealed : PushOutcome) :
    (do
      let w ← Prog.get
      if w.n % RESTART_INTERVAL = 0 ∧ w.payload > U16_MAX then Prog.throw .tableTooLarge
      else
        Prog.set (w.stageEntry e (encodeEntry e).length)
        return sealed : Prog TableWriter Error PushOutcome).wp
      (Prog.Delivers d (Pushable sh base limit p e) fun _ w' d' => Pushed sh base k limit p e w' d') w d := by
  have hrestarts := restartsOf_concat q.current e
  rw [Prog.wp_bind, Prog.wp_get, Prog.andThen_ok]
  split
  · rename_i hlarge
    refine Prog.delivers_throw fun hp => ?_
    have hlast := hp.restart_le w.payload
    rw [hq, hrestarts, ← h.n_eq, if_pos hlarge.1, ← h.payload_eq] at hlast
    have := hlast (by simp)
    omega
  · rename_i hsmall
    have hr : ∀ r ∈ restartsOf (q.current ++ [e]), r ≤ U16_MAX := by
      have hold : ∀ r ∈ restartsOf q.current, r ≤ U16_MAX := by
        rcases h.current_ok with hnil | hb
        · simp [hnil, restartsOf, restartsFrom]
        · exact hb.restart_le
      rw [hrestarts, ← h.n_eq, ← h.payload_eq]
      split
      · rename_i hmod
        intro r hr
        rcases List.mem_append.mp hr with hr | hr
        · exact hold r hr
        · rw [List.mem_singleton.mp hr]
          exact not_lt.mp fun hlt => hsmall ⟨hmod, hlt⟩
      · exact hold
    have hp : Pushable sh base limit p e := ⟨he, fitsBlock_nil hfit, by rw [hq]; exact hr, hseal⟩
    refine Prog.delivers_pure (s := w.stageEntry e (encodeEntry e).length) ⟨hp, ?_, ?_⟩
    · rw [hq]
      exact h.stageEntry he hfit hr
    · rw [hq]
      exact hd

theorem push_delivers {e : SstEntry} (h : Staged sh base k limit p w) (hd : Written sh base p.closed d) (hr : InRange e)
    (compressed : Bool) : (push sh e compressed).wp
      (Prog.Delivers d (Pushable sh base limit p e) fun _ w' d' => Pushed sh base k limit p e w' d') w d := by
  have hblocks := h.dataBlocks_eq
  have hlimit := h.limit_eq
  rw [push, Prog.wp_bind]
  cases hsize : entrySizes e with
  | error x =>
    intro _ hp
    rw [entrySizes_of_encodable hp.encodable] at hsize
    cases hsize
  | ok elen =>
    obtain ⟨hne, -, hval, rfl⟩ := entrySizes_ok hsize
    rw [Prog.wp_ofExcept_ok, Prog.andThen_ok]
    split
    · rename_i hkey
      refine Prog.delivers_throw fun hp => ?_
      have := hp.encodable.key_le
      omega
    rename_i hkey
    have he : Encodable sh e := ⟨hne, by omega, hval, hr.1, hr.2⟩
    rw [Prog.wp_bind, Prog.wp_get, Prog.andThen_ok]
    dsimp only
    have hfits : entryFits sh w.payload w.n (encodeEntry e).length = fitsBlock sh p.current e := by
      rw [h.payload_eq, h.n_eq]
      rfl
    rw [hfits]
    split
    · rename_i hfit
      exact stage_delivers h hd he hfit (Packing.push_fits hfit) (fun hc => absurd (hfit.symm.trans hc) (by simp)) _
    rename_i hfull
    have hfull' : fitsBlock sh p.current e = false := by simpa using hfull
    split
    · rename_i hzero
      refine Prog.delivers_throw fun hp => ?_
      rw [h.n_eq, List.length_eq_zero_iff] at hzero
      rw [hzero, hp.fits_nil] at hfull'
      cases hfull'
    rename_i hpos
    have hcur : p.current ≠ [] := by
      intro hc
      rw [h.n_eq, hc] at hpos
      exact hpos rfl
    split
    · rename_i hlim
      refine Prog.delivers_throw fun hp => ?_
      have := (hp.sealable hfull').1
      omega
    rename_i hlim
    refine Prog.delivers_bind (sealCurrent_delivers h hcur hd compressed) (fun hp => (hp.sealable hfull').2) ?_
    rintro _ w' d' ⟨hs, h', hd'⟩
    split
    · rename_i hfit
      exact stage_delivers h' hd' he hfit (Packing.push_full hfull') (fun _ => ⟨by omega, hs⟩) _
    · rename_i hnofit
      exact Prog.delivers_throw fun hp => hnofit hp.fits_nil

/-- Entries that can be pushed one after the other. -/
def PushableAll (sh : Shape) (base limit : Nat) : Packing SstEntry → List SstEntry → Prop
  | _, [] => True
  | p, e :: es => Pushable sh base limit p e ∧ PushableAll sh base limit (p.push (fitsBlock sh) e) es

theorem pushEach_delivers (es : List (SstEntry × Bool)) (h : Staged sh base k limit p w) (hd : Written sh base p.closed d)
    (hr : ∀ e ∈ es, InRange e.1) : (pushEach sh es).wp (Prog.Delivers d (PushableAll sh base limit p (es.map Prod.fst))
      fun _ w' d' => PushableAll sh base limit p (es.map Prod.fst) ∧
        Staged sh base k limit ((es.map Prod.fst).foldl (Packing.push (fitsBlock sh)) p) w' ∧
        Written sh base ((es.map Prod.fst).foldl (Packing.push (fitsBlock sh)) p).closed d') w d := by
  induction es generalizing p w d with
  | nil => exact Prog.delivers_pure ⟨trivial, h, hd⟩
  | cons x es ih =>
    obtain ⟨e, compressed⟩ := x
    refine Prog.delivers_bind (push_delivers h hd (hr (e, compressed) (by simp)) compressed) (fun hp => hp.1) ?_
    rintro _ w' d' ⟨hp, h', hd'⟩
    refine Prog.delivers_mono (ih h' hd' fun x hx => hr x (by simp [hx])) (fun hp => hp.2) ?_
    rintro _ w'' d'' ⟨hps, h'', hd''⟩
    exact ⟨⟨hp, hps⟩, h'', hd''⟩

/-! ### The end of a table -/

/-- The open block, if any, can be sealed inside the run. -/
def TailOk (sh : Shape) (base limit : Nat) (p : Packing SstEntry) : Prop :=
  p.current ≠ [] → p.closed.length < limit ∧ Sealable sh base p

theorem sealTail_delivers (h : Staged sh base k limit p w) (hd : Written sh base p.closed d) (compressed : Bool) :
    (sealTail sh compressed).wp (Prog.Delivers d (TailOk sh base limit p) fun n w' d' => TailOk sh base limit p ∧
      n = p.bins.length ∧ Staged sh base k limit ⟨p.bins, []⟩ w' ∧ Written sh base p.bins d') w d := by
  have hblocks := h.dataBlocks_eq
  have hlimit := h.limit_eq
  rw [sealTail, Prog.wp_bind, Prog.wp_get, Prog.andThen_ok]
  split
  · rename_i hpos
    have hne : p.current ≠ [] := by
      intro hc
      rw [h.n_eq, hc] at hpos
      exact absurd hpos (by simp)
    have hbins : p.bins = p.closed ++ [p.current] := by rw [Packing.bins, if_neg hne]
    rw [hbins]
    split
    · rename_i hfull
      refine Prog.delivers_throw fun ht => ?_
      have := (ht hne).1
      omega
    · rename_i hroom
      refine Prog.delivers_bind (sealCurrent_delivers h hne hd compressed) (fun ht => (ht hne).2) ?_
      rintro _ w' d' ⟨hs, h', hd'⟩
      exact Prog.delivers_pure ⟨fun _ => ⟨by omega, hs⟩, h'.dataBlocks_eq, h', hd'⟩
  · rename_i hpos
    have hnil : p.current = [] := by
      rw [h.n_eq] at hpos
      exact List.length_eq_zero_iff.mp (by omega)
    have hbins : p.bins = p.closed := by rw [Packing.bins, if_pos hnil]
    have hp : (⟨p.bins, []⟩ : Packing SstEntry) = p := by rw [hbins, ← hnil]
    rw [hp, hbins]
    exact Prog.delivers_pure ⟨fun hc => absurd hnil hc, hblocks, h, hd⟩

/-- What `finish_meta` reports. -/
def finishedTable (bs : List (List SstEntry)) (rdelMinSeq : Nat) : FinishedTable :=
  ⟨bs.length, bs.flatten.length, maxSeqOf bs.flatten, min (minSeqOf bs.flatten) rdelMinSeq, firstKeyOf bs.flatten,
    lastKeyOf bs.flatten⟩

theorem finishMeta_delivers {bs : List (List SstEntry)} (h : Staged sh base k limit ⟨bs, []⟩ w) (hd : Written sh base bs d)
    (rdelBlocks rdelMinSeq : Nat) : (finishMeta sh rdelBlocks rdelMinSeq).wp
      (Prog.Delivers d (base + bs.length + rdelBlocks + 2 ≤ U64_MAX) fun t _ d' => t = finishedTable bs rdelMinSeq ∧
        TableOn sh d'.blocks base k bs rdelBlocks (min (minSeqOf bs.flatten) rdelMinSeq) ∧
        ∀ j < base + bs.length + rdelBlocks, d'.blocks j = d.blocks j) w d := by
  have hpushed : pushed ⟨bs, []⟩ = bs.flatten := by simp [pushed]
  have hbase := h.base_eq
  have hblocks := h.dataBlocks_eq
  have hindex := h.index_eq
  have hbloom := h.bloom_eq
  have hmin := h.minSeq_eq
  rw [hpushed] at hbloom hmin
  dsimp only at hblocks hindex
  rw [finishMeta, Prog.wp_bind, Prog.wp_get, Prog.andThen_ok]
  dsimp only
  rw [hbase, hblocks, hbloom, hindex, hmin, h.k_eq, h.entryCount_eq, hpushed]
  split
  · exact Prog.delivers_throw (by omega)
  rw [Prog.wp_bind, Prog.wp_set, Prog.andThen_ok]
  refine Prog.delivers_bind (Prog.delivers_writeBlock _ _ _) (fun _ => trivial) ?_
  rintro _ w' d' ⟨rfl, rfl⟩
  split
  · exact Prog.delivers_throw (by omega)
  refine Prog.delivers_bind (Prog.delivers_writeBlock _ _ _) (fun _ => trivial) ?_
  rintro _ w' d' ⟨rfl, rfl⟩
  split
  · exact Prog.delivers_throw (by omega)
  rename_i hid
  rw [Prog.wp_bind, Prog.wp_set, Prog.andThen_ok]
  refine Prog.delivers_bind (Prog.delivers_writeBlock _ _ _) (fun _ => trivial) ?_
  rintro _ w' d' ⟨rfl, rfl⟩
  refine Prog.delivers_bind (Prog.delivers_flush _) (fun _ => trivial) ?_
  rintro _ w' d' ⟨rfl, rfl⟩
  refine Prog.delivers_pure ⟨?_, ?_, ?_⟩
  · rw [finishedTable, h.maxSeq_eq, h.firstKey_eq, h.lastKey_eq, hpushed]
  · refine ⟨fun b hb => h.block_ok b ?_, by omega, h.fits, fun i b hi => ?_, ?_, ?_, ?_⟩
    · rw [Packing.bins, if_pos rfl]
      exact hb
    · have hlt := (List.getElem?_eq_some_iff.mp hi).1
      simp only [Device.advance_blocks]
      rw [Device.put_blocks_ne _ _ _ (by omega), Device.advance_blocks, Device.put_blocks_ne _ _ _ (by omega),
        Device.advance_blocks, Device.put_blocks_ne _ _ _ (by omega)]
      exact hd i b hi
    · simp only [Device.advance_blocks]
      rw [Device.put_blocks_ne _ _ _ (by omega), Device.advance_blocks, Device.put_blocks_ne _ _ _ (by omega),
        Device.advance_blocks, Device.put_blocks_same]
    · simp only [Device.advance_blocks]
      rw [Device.put_blocks_ne _ _ _ (by omega), Device.advance_blocks, Device.put_blocks_same]
    · simp only [Device.advance_blocks]
      rw [Device.put_blocks_same]
  · intro j hj
    simp only [Device.advance_blocks]
    rw [Device.put_blocks_ne _ _ _ (by omega), Device.advance_blocks, Device.put_blocks_ne _ _ _ (by omega),
      Device.advance_blocks, Device.put_blocks_ne _ _ _ (by omega)]

end TableWriter

/-! ### The plan -/

namespace Sstable

variable {sh : Shape}

/-- The running state of `plan_table` after the entries of `p`. -/
structure PlanState.Follows (s : PlanState) (p : Packing SstEntry) : Prop where
  dataBlocks_eq : s.dataBlocks = p.closed.length
  payload_eq : s.payload = (encodeEntries p.current).length
  n_eq : s.n = p.current.length
  count_eq : s.count = (pushed p).length
  maxSeq_eq : s.maxSeq = maxSeqOf (pushed p)
  minSeq_eq : s.minSeq = minSeqOf (pushed p)
  first_eq : s.first = (pushed p).head?.map (·.key)
  last_eq : s.last = (pushed p).getLast?.map (·.key)

theorem PlanState.follows_new : PlanState.new.Follows Packing.empty := ⟨rfl, rfl, rfl, rfl, rfl, rfl, rfl, rfl⟩

theorem PlanState.step_follows {s : PlanState} {p : Packing SstEntry} {e : SstEntry} (h : s.Follows p)
    (he : entrySizes e = .ok (encodeEntry e).length) (hfit : fitsBlock sh [] e = true) :
    ∃ s', s.step sh e = .ok s' ∧ s'.Follows (p.push (fitsBlock sh) e) := by
  have hpushed := pushed_push (fitsBlock sh) p e
  have hfits : entryFits sh s.payload s.n (encodeEntry e).length = fitsBlock sh p.current e := by
    rw [h.payload_eq, h.n_eq]
    rfl
  -- The state once a block has been chosen for the entry.
  have hend : ∀ (s₁ : PlanState) (c : List SstEntry), s₁.payload = (encodeEntries c).length → s₁.n = c.length →
      s₁.dataBlocks = (p.push (fitsBlock sh) e).closed.length → (p.push (fitsBlock sh) e).current = c ++ [e] →
      s₁.count = s.count → s₁.maxSeq = s.maxSeq → s₁.minSeq = s.minSeq → s₁.first = s.first →
      PlanState.Follows { s₁ with
        payload := s₁.payload + (encodeEntry e).length
        n := s₁.n + 1
        count := s₁.count + 1
        maxSeq := max s₁.maxSeq e.seq
        minSeq := min s₁.minSeq e.seq
        first := s₁.first.or (some e.key)
        last := some e.key } (p.push (fitsBlock sh) e) := by
    intro s₁ c hpay hn hblocks hcur hcount hmax hmin hfirst
    refine ⟨hblocks, ?_, ?_, ?_, ?_, ?_, ?_, ?_⟩
    · rw [hcur, encodeEntries_append, List.length_append, hpay]
      simp [encodeEntries]
    · rw [hcur, List.length_append, hn]
      rfl
    · rw [hpushed, hcount, h.count_eq, List.length_append]
      rfl
    · rw [hpushed, maxSeqOf_concat, hmax, h.maxSeq_eq]
    · rw [hpushed, minSeqOf_concat, hmin, h.minSeq_eq]
    · rw [hpushed, hfirst, h.first_eq, List.head?_append]
      cases (pushed p).head? <;> rfl
    · simp [hpushed]
  unfold PlanState.step
  rw [he]
  show ∃ s', (PlanState.room sh s (encodeEntry e).length >>= _) = _ ∧ _
  unfold PlanState.room
  rw [hfits]
  split
  · rename_i hf
    refine ⟨_, rfl, hend s p.current h.payload_eq h.n_eq ?_ ?_ rfl rfl rfl rfl⟩
    · rw [Packing.push_fits hf]
      exact h.dataBlocks_eq
    · rw [Packing.push_fits hf]
  · rename_i hf
    have hf' : fitsBlock sh p.current e = false := by simpa using hf
    have hne : ¬ s.n = 0 := by
      rw [h.n_eq, List.length_eq_zero_iff]
      intro hc
      rw [hc, hfit] at hf'
      cases hf'
    have hnil : entryFits sh 0 0 (encodeEntry e).length = true := hfit
    rw [if_neg hne, hnil]
    refine ⟨_, rfl, hend _ [] rfl rfl ?_ ?_ rfl rfl rfl rfl⟩
    · rw [Packing.push_full hf', List.length_append, List.length_singleton]
      show s.dataBlocks + 1 = _
      rw [h.dataBlocks_eq]
    · rw [Packing.push_full hf']
      rfl

theorem plan_follows {s : PlanState} {p : Packing SstEntry} {es : List SstEntry} (h : s.Follows p)
    (he : ∀ e ∈ es, entrySizes e = .ok (encodeEntry e).length ∧ fitsBlock sh [] e = true) :
    ∃ s', es.foldlM (PlanState.step sh) s = .ok s' ∧ s'.Follows (es.foldl (Packing.push (fitsBlock sh)) p) := by
  induction es generalizing s p with
  | nil => exact ⟨s, rfl, h⟩
  | cons e es ih =>
    obtain ⟨s₁, hs₁, h₁⟩ := PlanState.step_follows h (he e (by simp)).1 (he e (by simp)).2
    obtain ⟨s', hs', h'⟩ := ih h₁ fun x hx => he x (by simp [hx])
    refine ⟨s', ?_, h'⟩
    rw [List.foldlM_cons, hs₁]
    exact hs'

/-- The open block counts when something is in it. -/
theorem PlanState.Follows.blocks_eq {s : PlanState} {p : Packing SstEntry} (h : s.Follows p) :
    (if s.n > 0 then s.dataBlocks + 1 else s.dataBlocks) = p.bins.length := by
  rw [h.n_eq, h.dataBlocks_eq, Packing.bins]
  by_cases hcur : p.current = []
  · rw [if_pos hcur, hcur]
    rfl
  · rw [if_neg hcur, if_pos (List.length_pos_iff.mpr hcur), List.length_append]
    rfl

/-- The plan of a table is the shape that greedy packing gives it. -/
theorem planTable_eq {es : List SstEntry}
    (he : ∀ e ∈ es, entrySizes e = .ok (encodeEntry e).length ∧ fitsBlock sh [] e = true ∧ e.key.length ≤ sh.KEY_MAX) :
    planTable sh es = .ok ⟨(Packing.pack (fitsBlock sh) es).bins.length, es.length, maxSeqOf es, minSeqOf es, firstKeyOf es,
      lastKeyOf es⟩ := by
  have hsizes : ∀ e ∈ es, entrySizes e = .ok (encodeEntry e).length ∧ fitsBlock sh [] e = true :=
    fun e hx => ⟨(he e hx).1, (he e hx).2.1⟩
  obtain ⟨s, hs, h⟩ := plan_follows PlanState.follows_new hsizes
  have hpushed : pushed (es.foldl (Packing.push (fitsBlock sh)) Packing.empty) = es := Packing.flatten_pack es
  have hfirst : planBound sh s.first = .ok (firstKeyOf es) := by
    rw [h.first_eq, hpushed]
    cases es with
    | nil => rfl
    | cons e es =>
      have hle := (he e (by simp)).2.2
      exact if_neg (not_lt.mpr hle)
  have hlast : planBound sh s.last = .ok (lastKeyOf es) := by
    rw [h.last_eq, hpushed, lastKeyOf]
    cases hl : es.getLast? with
    | none => rfl
    | some e =>
      have hle := (he e (List.mem_of_getLast? hl)).2.2
      exact if_neg (not_lt.mpr hle)
  have hblocks : (if s.n > 0 then s.dataBlocks + 1 else s.dataBlocks) = (Packing.pack (fitsBlock sh) es).bins.length :=
    h.blocks_eq
  unfold planTable
  rw [hs]
  show (planBound sh s.first >>= _) = _
  rw [hfirst]
  show (planBound sh s.last >>= _) = _
  rw [hlast]
  show Except.ok _ = _
  rw [hblocks, h.count_eq, h.maxSeq_eq, h.minSeq_eq, hpushed]

end Sstable

end Horton
