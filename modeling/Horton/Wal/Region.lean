import Horton.Wal.Tear

/-!
# The invariant of the log region

The region is reused: behind the live log, and inside its last block, stand records of earlier generations and of
groups that were cut.  `RegionOk` says what keeps them apart.  The blocks from the head to the append position are a
window that the walk passes, replaying `kept`; every closing record ever written to a block outside that window is at
or below the floor, so whatever a later torn write uncovers there can neither close a new group nor be replayed.  The
exception are records of `Lone`, groups of their own that a failed write may have left at the start of a block.

`Torn` is a block that was rewritten with the same data until it landed, or did not.  The lemmas say what a whole block
write, a torn one, a failed one, a recovery and a flush do to the invariant.
-/

namespace Horton

open BlockDev GroupLog

/-- The log region `[start, stop)` of a device whose log runs from block `head` to the append position `next`; recovery
with this head and `floor` replays `kept`.  The log holds numbers up to `lim`, and takes new ones above `top`. -/
structure RegionOk (size : Nat) (Lone : Record → Prop) (d : Device) (start stop head next floor top lim : Nat)
    (kept : List Record) : Prop where
  start_le : start ≤ head
  next_le : next ≤ stop
  length_block : ∀ j, start ≤ j → j < stop → (d.blocks j).length = size
  floor_le : floor ≤ top
  stale : ∀ j, start ≤ j → j < stop → ¬ (head ≤ j ∧ j < next) → ∀ o r, Written d j o r → r.more = false →
    r.seq ≤ floor ∨ (o = 0 ∧ Lone r)
  window : ∃ c, Window (summaries d) floor head ⟨0, none⟩ kept next c ∧ (∀ f ∈ c.newer, f ≤ top) ∧ c.max ≤ lim ∧
    ∀ j, start ≤ j → j < stop → ∀ o r, Written d j o r → r.more = false → r.seq ≤ max c.max floor ∨ (o = 0 ∧ Lone r)

/-- A region where no failed write left a record behind, and where the log holds no number above `top`. -/
abbrev PlainRegion (size : Nat) (d : Device) (start stop head next floor top : Nat) (kept : List Record) : Prop :=
  RegionOk size (fun _ => False) d start stop head next floor top top kept

variable {size start stop head next floor top lim k : Nat} {Lone : Record → Prop} {kept rs : List Record} {d d₀ d' : Device}

/-- Records that may be written next: well formed, numbered upwards from above `top`. -/
structure Fresh (top : Nat) (rs : List Record) : Prop where
  wf : ∀ r ∈ rs, r.WF
  increasing : Increasing rs
  newer : ∀ r ∈ rs, top < r.seq

theorem length_blockOf (h : lens rs ≤ size) : (blockOf size rs).length = size := by
  rw [blockOf, List.length_append, length_encodeRecords, Bytes.length_zeros]; omega

theorem RegionOk.head_le (h : RegionOk size Lone d start stop head next floor top lim kept) : head ≤ next := by
  obtain ⟨c, hw, -⟩ := h.window
  exact hw.le

theorem RegionOk.mono (h : RegionOk size Lone d start stop head next floor top lim kept) {top' lim' : Nat} (ht : top ≤ top')
    (hl : lim ≤ lim') : RegionOk size Lone d start stop head next floor top' lim' kept :=
  { h with
    floor_le := le_trans h.floor_le ht
    window := h.window.imp fun _ hc => ⟨hc.1, fun f hf => le_trans (hc.2.1 f hf) ht, le_trans hc.2.2.1 hl, hc.2.2.2⟩ }

/-- Only the blocks of the region matter. -/
theorem RegionOk.keeps (h : RegionOk size Lone d start stop head next floor top lim kept)
    (hk : Keeps (fun j => start ≤ j ∧ j < stop) d d') : RegionOk size Lone d' start stop head next floor top lim kept := by
  have hwr : ∀ j, start ≤ j → j < stop → ∀ o r, Written d' j o r → Written d j o r := by
    rintro j h1 h2 o r ⟨w, hw, rfl, hr⟩
    exact ⟨w, hk.writes w hw ⟨h1, h2⟩, rfl, hr⟩
  have h1 := h.start_le
  have h2 := h.next_le
  refine ⟨h1, h2, ?_, h.floor_le, ?_, ?_⟩
  · intro j hj hj'
    rw [hk.blocks j ⟨hj, hj'⟩]
    exact h.length_block j hj hj'
  · intro j hj hj' hout o r hr
    exact h.stale j hj hj' hout o r (hwr j hj hj' o r hr)
  · obtain ⟨c, hw, hn, hc, hb⟩ := h.window
    refine ⟨c, hw.congr fun i hi hi' => ?_, hn, hc, fun j hj hj' o r hr => hb j hj hj' o r (hwr j hj hj' o r hr)⟩
    rw [summaries, summaries, hk.blocks i ⟨by omega, by omega⟩]

theorem NoForge.keeps {P : Nat → Prop} {j : Nat} (h : NoForge d j) (hk : Keeps P d d') (hj : P j) : NoForge d' j := by
  intro o r hd
  rw [hk.blocks j hj] at hd
  obtain ⟨w, hw, hr⟩ := h o r hd
  exact ⟨w, hk.logged w hw, hr⟩

/-! ### A block that is rewritten -/

/-- Block `j` was rewritten with `data` any number of times, and `k` bytes of it are there. -/
structure Torn (d₀ d : Device) (j : Nat) (data : Bytes) (k : Nat) : Prop where
  block : d.blocks j = Bytes.tear k data (d₀.blocks j)
  other : ∀ i, i ≠ j → d.blocks i = d₀.blocks i
  writes : ∀ w ∈ d.writes, w ∈ d₀.writes ∨
    (w.block = j ∧ w.data = data ∧ ∃ k' ≤ k, w.after = Bytes.tear k' data (d₀.blocks j))

theorem torn_refl (d : Device) (j : Nat) (data : Bytes) : Torn d d j data 0 :=
  ⟨(Bytes.tear_zero _ _).symm, fun _ _ => rfl, fun _ h => Or.inl h⟩

/-- One more write of the data. -/
theorem Torn.put {j : Nat} {data : Bytes} (h : Torn d₀ d j data k) (hlen : data.length = (d₀.blocks j).length) (k' : Nat) :
    Torn d₀ (d.put j data (Bytes.tear k' data (d.blocks j))) j data (max k k') := by
  have hb : Bytes.tear k' data (d.blocks j) = Bytes.tear (max k k') data (d₀.blocks j) := by
    rw [h.block, Bytes.tear_tear hlen]
  refine ⟨by rw [Device.put_blocks_same, hb], fun i hi => ?_, fun w hw => ?_⟩
  · rw [Device.put_blocks_ne _ _ _ hi]
    exact h.other i hi
  · rcases List.mem_append.mp hw with hw | hw
    · rcases h.writes w hw with hw | ⟨h1, h2, k₁, hk₁, h3⟩
      · exact Or.inl hw
      · exact Or.inr ⟨h1, h2, k₁, by omega, h3⟩
    · obtain rfl := List.mem_singleton.mp hw
      exact Or.inr ⟨rfl, rfl, _, le_rfl, hb⟩

theorem Torn.put_whole {j : Nat} {data : Bytes} (h : Torn d₀ d j data k) (hlen : data.length = (d₀.blocks j).length) :
    Torn d₀ (d.put j data data) j data (max k data.length) := by
  have := h.put hlen data.length
  rwa [Bytes.tear_full (by rw [h.block, Bytes.length_tear hlen, hlen]) le_rfl] at this

theorem Torn.advance {j : Nat} {data : Bytes} (h : Torn d₀ d j data k) : Torn d₀ d.advance j data k :=
  ⟨h.block, h.other, h.writes⟩

/-- A record that stood at its place among the new ones still stands when more of the block has landed. -/
private theorem decodesAt_more {o k' : Nat} {r : Record} (hfit : lens rs ≤ size) {old : Bytes} (hlen : old.length = size)
    (hpl : (o, r) ∈ placed 0 rs) (h : decodesAt (Bytes.tear k' (blockOf size rs) old) o r) (hk : k' ≤ k) :
    decodesAt (Bytes.tear k (blockOf size rs) old) o r := by
  obtain ⟨hwf, he⟩ := decodesAt_iff.mp h
  have hlen' : (blockOf size rs).length = old.length := by rw [length_blockOf hfit, hlen]
  obtain ⟨pre, post, rfl, ho⟩ := mem_placed.mp hpl
  have hnew : ((blockOf size (pre ++ r :: post)).drop o).take r.len = encodeRecord r := by
    rw [blockOf, ho, Nat.zero_add, encodeRecords_append, encodeRecords_cons, List.append_assoc, ← length_encodeRecords,
      List.drop_left, List.append_assoc, ← length_encodeRecord, List.take_left]
  refine decodesAt_iff.mpr ⟨hwf, ?_⟩
  rw [← he]
  refine List.ext_getElem? fun i => ?_
  have hi := congrArg (·[i]?) (he.trans hnew.symm)
  simp only [List.getElem?_take, List.getElem?_drop, Bytes.getElem?_tear hlen'] at hi ⊢
  by_cases h1 : i < r.len
  · rw [if_pos h1] at hi ⊢
    rw [if_pos h1] at hi ⊢
    by_cases h2 : o + i < k' <;> by_cases h3 : o + i < k
    · rw [if_pos h2, if_pos h3]
    · omega
    · rw [if_neg h2] at hi ⊢
      rw [if_pos h3]
      exact hi.symm
    · rw [if_neg h2, if_neg h3]
  · rw [if_neg h1, if_neg h1]

/-- The history of the block and what was added to it. -/
theorem Torn.written {j j' o : Nat} {r : Record} (h : Torn d₀ d j (blockOf size rs) k) (hrs : Fresh top rs)
    (hfit : lens rs ≤ size) (hlen : (d₀.blocks j).length = size) (hw : Written d j' o r) :
    Written d₀ j' o r ∨ (j' = j ∧ (o, r) ∈ placed 0 rs ∧ decodesAt (d.blocks j) o r) := by
  obtain ⟨w, hw, rfl, hpl, hd⟩ := hw
  rcases h.writes w hw with hold | ⟨hj, hdata, k', hk', hafter⟩
  · exact Or.inl ⟨w, hold, rfl, hpl, hd⟩
  · rw [hdata, summary_blockOf hrs.wf hrs.increasing] at hpl
    rw [hafter] at hd
    exact Or.inr ⟨hj, hpl, by rw [h.block]; exact decodesAt_more hfit hlen hpl hd hk'⟩

/-! ### Writing the next block -/

/-- After any number of writes of the block `blockOf size rs` to the append position: what is left to show is what the
block says now, and where its new closing records stand. -/
theorem RegionOk.rewrite (h : RegionOk size Lone d₀ start stop head next floor top lim kept)
    (ht : Torn d₀ d next (blockOf size rs) k) (hrs : Fresh top rs) (hfit : lens rs ≤ size) {Lone' : Record → Prop}
    {next' top' lim' : Nat} {kept' : List Record} (hlone : ∀ r, Lone r → Lone' r)
    (hnext : next' = next ∨ next' = next + 1) (hlt : next < stop) (htop : top ≤ top')
    (hnew : next' = next → ∀ o r, (o, r) ∈ placed 0 rs → decodesAt (d.blocks next) o r → r.more = false →
      o = 0 ∧ Lone' r)
    (hwin : ∀ c, (∀ f ∈ c.newer, f ≤ top) → c.max ≤ lim → Window (summaries d) floor head ⟨0, none⟩ kept next c →
      ∃ c', Window (summaries d) floor head ⟨0, none⟩ kept' next' c' ∧ (∀ f ∈ c'.newer, f ≤ top') ∧ c'.max ≤ lim' ∧
        c.max ≤ c'.max ∧ ∀ o r, (o, r) ∈ placed 0 rs → decodesAt (d.blocks next) o r → r.more = false →
          r.seq ≤ c'.max ∨ (o = 0 ∧ Lone' r)) :
    RegionOk size Lone' d start stop head next' floor top' lim' kept' := by
  have hstart := h.start_le
  have hhead := h.head_le
  have hblen := h.length_block next (by omega) hlt
  refine ⟨h.start_le, by have := h.next_le; omega, ?_, le_trans h.floor_le htop, ?_, ?_⟩
  · intro j h1 h2
    by_cases hj : j = next
    · rw [hj, ht.block, Bytes.length_tear (by rw [length_blockOf hfit, hblen]), hblen]
    · rw [ht.other j hj]
      exact h.length_block j h1 h2
  · intro j h1 h2 h3 o r hwr hm
    rcases ht.written hrs hfit hblen hwr with hwr | ⟨rfl, hpl, hd⟩
    · exact (h.stale j h1 h2 (by omega) o r hwr hm).imp id fun hr => ⟨hr.1, hlone r hr.2⟩
    · rcases hnext with hnext | hnext
      · exact Or.inr (hnew hnext o r hpl hd hm)
      · omega
  · obtain ⟨c, hw, hn, hc, hb⟩ := h.window
    have hw' : Window (summaries d) floor head ⟨0, none⟩ kept next c := by
      refine hw.congr fun i _ hi => ?_
      rw [summaries, summaries, ht.other i (by omega)]
    obtain ⟨c', hw'', hn', hc', hcc, hb'⟩ := hwin c hn hc hw'
    refine ⟨c', hw'', hn', hc', ?_⟩
    intro j h1 h2 o r hwr hm
    rcases ht.written hrs hfit hblen hwr with hwr | ⟨rfl, hpl, hd⟩
    · refine (hb j h1 h2 o r hwr hm).imp (fun hle => ?_) fun hr => ⟨hr.1, hlone r hr.2⟩
      omega
    · exact (hb' o r hpl hd hm).imp (fun hle => le_trans hle (le_max_left _ _)) id

/-- A block with complete groups above `top` extends the window. -/
theorem window_snoc {c : GroupLog.Cursor} {gs : List Record} (h : Window (summaries d) floor head ⟨0, none⟩ kept next c)
    (hn : ∀ f ∈ c.newer, f ≤ top) (hgs : (summaries d next).groups = gs) (hne : gs ≠ []) (hft : floor ≤ top)
    (hgt : ∀ r ∈ gs, top < r.seq) :
    Window (summaries d) floor head ⟨0, none⟩ (kept ++ gs) (next + 1) (c.next (summaries d next)) := by
  have hfl : ∀ r ∈ gs, floor < r.seq := fun r hr => lt_of_le_of_lt hft (hgt r hr)
  have hp : passes floor c (summaries d next) = true := by
    refine passes_of_newer (by rw [hgs]; exact hne) (by rw [hgs]; exact hfl) ?_
    rw [hgs]
    exact fun f hf r hr => lt_of_le_of_lt (hn f hf) (hgt r hr)
  have hlive : (summaries d next).live floor = gs := by
    rw [Summary.live, hgs]
    exact List.filter_eq_self.mpr fun r hr => by simpa [LogRecord.seq] using hfl r hr
  exact hlive ▸ h.snoc hp

/-- The block landed whole: its groups join the log. -/
theorem RegionOk.write_whole (h : RegionOk size Lone d₀ start stop head next floor top lim kept)
    (ht : Torn d₀ d next (blockOf size rs) k) (hrs : Fresh top rs) (hfit : lens rs ≤ size) (hk : size ≤ k)
    (hclosed : closed rs = rs) (hne : rs ≠ []) (hlt : next < stop) {top' lim' : Nat} (htop : top ≤ top') (hlim : lim ≤ lim')
    (hle : ∀ r ∈ rs, r.seq ≤ lim') :
    RegionOk size Lone d start stop head (next + 1) floor top' lim' (kept ++ rs) := by
  have hstart := h.start_le
  have hhead := h.head_le
  have hblen := h.length_block next (by omega) hlt
  have hblock : summaries d next = ⟨rs, false⟩ := by
    rw [summaries, ht.block, Bytes.tear_full (by rw [length_blockOf hfit, hblen]) (by rw [length_blockOf hfit]; exact hk),
      summary_blockOf hrs.wf hrs.increasing]
  refine h.rewrite ht hrs hfit (fun _ => id) (Or.inr rfl) hlt htop (by simp) ?_
  intro c hn hc hw
  have hg : (summaries d next).groups = rs := by rw [hblock, Summary.groups, hclosed]
  refine ⟨_, window_snoc hw hn hg hne h.floor_le hrs.newer, ?_, ?_, le_maxSeq _ _, ?_⟩
  · simp [GroupLog.Cursor.next, hblock, Summary.isTorn, hclosed]
  · rw [GroupLog.Cursor.next, hg]
    exact maxSeq_le (le_trans hc hlim) hle
  · intro o r hpl _ _
    obtain ⟨pre, post, hr, -⟩ := mem_placed.mp hpl
    have hmem : r ∈ rs := by rw [hr]; simp
    rw [GroupLog.Cursor.next, hg]
    exact Or.inl (seq_le_maxSeq hmem)

/-- The append position lies outside the window: its closing records are stale. -/
theorem RegionOk.stale_next (h : RegionOk size Lone d start stop head next floor top lim kept) (hlt : next < stop) {o : Nat}
    {r : Record} (hw : Written d next o r) (hm : r.more = false) : r.seq ≤ floor ∨ (o = 0 ∧ Lone r) :=
  h.stale next (le_trans h.start_le h.head_le) hlt (by omega) o r hw hm

/-- How the torn block scans. -/
theorem RegionOk.summary_torn (h : RegionOk size Lone d₀ start stop head next floor top lim kept)
    (ht : Torn d₀ d next (blockOf size rs) k) (hrs : Fresh top rs) (hfit : lens rs ≤ size) (hlt : next < stop)
    (hforge : NoForge d₀ next) (hforge' : NoForge d next) :
    ∃ n junk torn, summaries d next = ⟨rs.take n ++ junk, torn⟩ ∧
      (∀ r ∈ junk, r.more = false → ∃ o, lens (rs.take n) ≤ o ∧ (r.seq ≤ floor ∨ (o = 0 ∧ Lone r))) ∧
      ∀ o r, (o, r) ∈ placed 0 rs → r.more = false → decodesAt (d.blocks next) o r → r ∈ rs.take n := by
  have hstart := h.start_le
  have hhead := h.head_le
  have hblen := h.length_block next (by omega) hlt
  have hyps : TearHyps (fun o r => r.seq ≤ floor ∨ (o = 0 ∧ Lone r)) rs (Bytes.zeros (size - lens rs))
      (d₀.blocks next) k := by
    refine ⟨hrs.wf, by rw [hblen]; exact length_blockOf hfit, ?_, ?_, ?_⟩
    · intro o r hd hm
      exact h.stale_next hlt (hforge o r hd) hm
    · intro o r hd hm
      have hd' : decodesAt (d.blocks next) o r := by rw [ht.block]; exact hd
      rcases ht.written hrs hfit hblen (hforge' o r hd') with hw | ⟨-, hpl, -⟩
      · exact Or.inl (h.stale_next hlt hw hm)
      · exact Or.inr hpl
    · rintro o r hpl ho - (hold | ⟨rfl, -⟩)
      · obtain ⟨pre, post, hr, -⟩ := mem_placed.mp hpl
        have := hrs.newer r (by rw [hr]; simp)
        have := h.floor_le
        omega
      · omega
  have := summary_tear hyps hrs.increasing
  rw [summaries, ht.block]
  exact this

/-- A torn write to the append position keeps a prefix of the new groups: none, and the log ends where it did, or some,
and the torn block joins it. -/
theorem RegionOk.write_torn (h : RegionOk size Lone d₀ start stop head next floor top lim kept)
    (ht : Torn d₀ d next (blockOf size rs) k) (hrs : Fresh top rs) (hfit : lens rs ≤ size) (hlt : next < stop) {top' : Nat}
    (htop : top ≤ top') (hlim : lim ≤ top') (hle : ∀ r ∈ rs, r.seq ≤ top') (hforge : NoForge d₀ next)
    (hforge' : NoForge d next) :
    ∃ n next', RegionOk size Lone d start stop head next' floor top' top' (kept ++ closed (rs.take n)) := by
  obtain ⟨n, junk, torn, hs, hjunk, hstand⟩ := h.summary_torn ht hrs hfit hlt hforge hforge'
  have hsub : ∀ r ∈ rs.take n, r ∈ rs := fun r hr => List.mem_of_mem_take hr
  by_cases hcl : closed (rs.take n) = []
  · -- No new group is complete: the block stays outside the log.
    have hno : ∀ o r, (o, r) ∈ placed 0 rs → decodesAt (d.blocks next) o r → r.more = false → False :=
      fun o r hpl hd hm => closed_ne_nil (hstand o r hpl hm hd) hm hcl
    refine ⟨n, next, h.rewrite ht hrs hfit (fun _ => id) (Or.inl rfl) hlt htop
      (fun _ o r hpl hd hm => (hno o r hpl hd hm).elim) ?_⟩
    intro c hn hc hw
    rw [hcl, List.append_nil]
    exact ⟨c, hw, fun f hf => le_trans (hn f hf) htop, le_trans hc hlim, le_rfl,
      fun o r hpl hd hm => (hno o r hpl hd hm).elim⟩
  · have hnil : rs.take n ≠ [] := fun hc => hcl (by rw [hc]; rfl)
    obtain ⟨a, as, ha⟩ := List.exists_cons_of_ne_nil hnil
    -- Behind a new record nothing old closes a group, for the numbers in a block increase.
    have hmore : ∀ r ∈ junk, r.more = true := by
      intro r hr
      by_contra hm
      rw [Bool.not_eq_true] at hm
      obtain ⟨o, ho, hold⟩ := hjunk r hr hm
      have hinc : Increasing (summaries d next).recs := summary_increasing _
      rw [hs] at hinc
      have hlt' : a.seq < r.seq := (List.pairwise_append.mp hinc).2.2 a (by rw [ha]; simp) r hr
      have := hrs.newer a (hsub a (by rw [ha]; simp))
      have := h.floor_le
      have hpos := a.len_pos
      rw [ha, lens_cons] at ho
      rcases hold with hold | ⟨rfl, -⟩ <;> omega
    have hgr : (summaries d next).groups = closed (rs.take n) := by
      rw [hs, Summary.groups]
      exact closed_append_of_more hmore
    have hmem : ∀ r ∈ closed (rs.take n), r ∈ rs := fun r hr => hsub r ((closed_isPrefix _).subset hr)
    refine ⟨n, next + 1, h.rewrite ht hrs hfit (fun _ => id) (Or.inr rfl) hlt htop (by simp) ?_⟩
    intro c hn hc hw
    have hmax : (c.next (summaries d next)).max ≤ top' := by
      rw [GroupLog.Cursor.next, hgr]
      exact maxSeq_le (le_trans hc hlim) fun r hr => hle r (hmem r hr)
    refine ⟨_, window_snoc hw hn hgr hcl h.floor_le fun r hr => hrs.newer r (hmem r hr), ?_, hmax, le_maxSeq _ _, ?_⟩
    · intro f hf
      simp only [GroupLog.Cursor.next] at hf hmax
      split at hf <;> simp at hf
      omega
    · intro o r hpl hd hm
      rw [GroupLog.Cursor.next, hgr]
      exact Or.inl (seq_le_maxSeq (mem_closed (hstand o r hpl hm hd) hm))

/-- A failed write whose group was given up: the log ends where it did, unless a closing record of the group stands
behind the start of the block. -/
theorem RegionOk.write_failed (h : RegionOk size Lone d₀ start stop head next floor top lim kept)
    (ht : Torn d₀ d next (blockOf size rs) k) (hrs : Fresh top rs) (hfit : lens rs ≤ size) (hlt : next < stop)
    {Lone' : Record → Prop} (hlone : ∀ r, Lone r → Lone' r)
    (hnew : ∀ o r, (o, r) ∈ placed 0 rs → decodesAt (d.blocks next) o r → r.more = false → o = 0 ∧ Lone' r) :
    RegionOk size Lone' d start stop head next floor top lim kept :=
  h.rewrite ht hrs hfit hlone (Or.inl rfl) hlt le_rfl (fun _ => hnew) fun c hn hc hw =>
    ⟨c, hw, hn, hc, le_rfl, fun o r hpl hd hm => Or.inr (hnew o r hpl hd hm)⟩

/-! ### Recovery and flush -/

/-- A block outside the window holds no live group, or a single record that was a group of its own. -/
theorem RegionOk.live_outside (h : RegionOk size Lone d start stop head next floor top lim kept) {j : Nat}
    (hforge : NoForge d j) (h1 : start ≤ j) (h2 : j < stop) (h3 : ¬ (head ≤ j ∧ j < next)) :
    ∀ r ∈ (summaries d j).live floor, (summaries d j).live floor = [r] ∧ Lone r := by
  have hstands : ∀ o r, (o, r) ∈ placed 0 (summaries d j).recs → r.more = false → r.seq ≤ floor ∨ (o = 0 ∧ Lone r) :=
    fun o r hpl hm => h.stale j h1 h2 h3 o r (hforge o r (decodesAt_of_placed_summary hpl)) hm
  have hinc : Increasing (summaries d j).recs := summary_increasing _
  rw [Summary.live, Summary.groups]
  generalize (summaries d j).recs = recs at hstands hinc
  have hnone : ∀ rs : List Record, Increasing rs → (∀ r ∈ rs, r.more = false → r.seq ≤ floor) →
      (closed rs).filter (fun r => decide (floor < LogRecord.seq r)) = [] := by
    intro rs hrs hall
    rw [List.filter_eq_nil_iff]
    intro r hr
    simpa [LogRecord.seq] using closed_le hrs hall r hr
  cases recs with
  | nil => simp [closed]
  | cons a as =>
    have htail : ∀ r ∈ as, r.more = false → r.seq ≤ floor := by
      intro r hr hm
      obtain ⟨o, ho, hpl⟩ := exists_placed (o := a.len) hr
      have hpos := a.len_pos
      rcases hstands o r (List.mem_cons_of_mem _ (by rw [Nat.zero_add]; exact hpl)) hm with hle | ⟨rfl, -⟩
      · exact hle
      · omega
    by_cases ha : a.more = false ∧ floor < a.seq
    · obtain ⟨ham, hfl⟩ := ha
      have hlone : Lone a := by
        rcases hstands 0 a List.mem_cons_self ham with hle | ⟨-, hl⟩
        · omega
        · exact hl
      have hmore : ∀ r ∈ as, LogRecord.more r = true := by
        intro r hr
        by_contra hm
        have := htail r hr (by simpa [LogRecord.more] using hm)
        have : a.seq < r.seq := (List.pairwise_cons.mp hinc).1 r hr
        omega
      have hcl : closed (a :: as) = [a] := by
        have := @closed_append_of_more _ _ [a] as hmore
        simpa [closed, LogRecord.more, ham] using this
      rw [hcl]
      simp [LogRecord.seq, hfl, hlone]
    · rw [hnone (a :: as) hinc]
      · simp
      · intro r hr hm
        rcases List.mem_cons.mp hr with rfl | hr
        · by_contra hlt
          exact ha ⟨hm, by omega⟩
        · exact htail r hr hm

/-- Recovery replays what the log keeps and then only lone records, and the position where it resumes is an append
position again. -/
theorem RegionOk.recover (h : RegionOk size Lone d start stop head next floor top lim kept)
    (hforge : ∀ j, start ≤ j → j < stop → NoForge d j) :
    let r := walk (summaries d) floor (stop - head) head ⟨0, none⟩
    ∃ rest, r.1 = kept ++ rest ∧ (∀ a ∈ rest, Lone a) ∧
      RegionOk size Lone d start stop head r.2.1 floor (max r.2.2.max floor) r.2.2.max r.1 := by
  obtain ⟨c, hw, hn, hc, hb⟩ := h.window
  have hhead := h.head_le
  have hnext := h.next_le
  have hstart := h.start_le
  obtain ⟨hrest, hle⟩ := walk_window (summaries d) floor (head + (stop - head) - next) next c
  rw [hw.walk_eq (by omega)]
  generalize walk (summaries d) floor (head + (stop - head) - next) next c = r at hrest hle
  have hlone : ∀ a ∈ r.1, Lone a := by
    refine hrest.forall_of_live fun i h1 h2 a ha => ?_
    exact (h.live_outside (hforge i (by omega) (by omega)) (by omega) (by omega) (by omega) a ha).2
  have hwin := hw.trans hrest
  have hge := hrest.le_max.1
  refine ⟨r.1, rfl, hlone, h.start_le, by simp only; omega, h.length_block, le_max_right _ _, ?_, _, hwin, ?_, le_rfl, ?_⟩
  · intro j h1 h2 h3
    exact h.stale j h1 h2 (by have := hrest.le; simp only at h3; omega)
  · intro f hf
    have := hwin.newer_le (by simp) f hf
    simp only
    omega
  · intro j h1 h2 o r' hr' hm
    refine (hb j h1 h2 o r' hr' hm).imp (fun hle => ?_) id
    omega

/-- A flush moves the head and lifts the floor over everything the log holds. -/
theorem RegionOk.flush (h : RegionOk size Lone d start stop head next floor top lim kept) {head' floor' : Nat}
    (h1 : start ≤ head') (h2 : head' ≤ stop) (hl : lim ≤ floor') (hf : floor ≤ floor') :
    RegionOk size Lone d start stop head' head' floor' floor' floor' [] := by
  obtain ⟨c, -, -, hc, hb⟩ := h.window
  have hall : ∀ j, start ≤ j → j < stop → ∀ o r, Written d j o r → r.more = false → r.seq ≤ floor' ∨ (o = 0 ∧ Lone r) := by
    intro j hj hj' o r hw hm
    refine (hb j hj hj' o r hw hm).imp (fun hle => ?_) id
    omega
  refine ⟨h1, h2, h.length_block, le_rfl, fun j hj hj' _ => hall j hj hj', ⟨0, none⟩, .nil, by simp, Nat.zero_le _, ?_⟩
  intro j hj hj' o r hw hm
  exact (hall j hj hj' o r hw hm).imp (fun hle => le_trans hle (le_max_right _ _)) id

end Horton
