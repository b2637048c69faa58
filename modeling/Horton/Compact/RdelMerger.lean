import Horton.Compact.Cursor
import Horton.Lib.Spans
import Horton.Slots
import Horton.Sstable.RdelReader

/-!
# Merging range tombstones

The pull merge of `compact.rs` over the range-tombstone sections of a compaction's inputs: one head per source table, and
one head that reads the sections of all targets one after another.  Starts are raised to the live lower bound of their
table.

`Left` says which tombstones a head still has to yield; filling a head exposes the first of them (`fill_spec`), and every
step of the merge is one of those of `Span.Merging` (`nextMerged_spec`).
-/

namespace Horton

open BlockDev Sstable

def COMPACTION_KMAX : Nat := 8

/-- The first range-tombstone block; `none` for a malformed ref. -/
def TableRef.rdelFirst (t : TableRef) : Option Nat :=
  match t.dataBlocks with
  | some d => if t.firstBlock + d > U64_MAX then none else some (t.firstBlock + d)
  | none => none

/-- The level of the targets and the ids of those to read, in key order. -/
structure TargetView where
  level : List TableRef
  ids : List Nat

/-- First block, blocks and live lower bound of the section of target `i`; `none` past the last target. -/
def TargetView.sectionOf (v : TargetView) (i : Nat) : Option (Except Error (Nat × Nat × Bytes)) :=
  match v.ids[i]? with
  | none => none
  | some id =>
    match v.level.find? (·.id = id) with
    | none => some (.error .corruptManifest)
    | some t =>
      match t.rdelFirst with
      | some first => some (.ok (first, t.rdelBlocks, t.firstKey))
      | none => some (.error .corruptManifest)

abbrev OwnedRdel := Span Bytes

/-- The part of a tombstone above the live bound `lower`. -/
def raise (lower : Bytes) (e : RdelEntry) : Option OwnedRdel :=
  if e.stop ≤ lower then none else some ⟨if e.start < lower then lower else e.start, e.stop, e.seq⟩

/-- One merge input; the concatenating head opens the targets one after another. -/
structure RdelHead where
  firstBlock : Nat
  rdelBlocks : Nat
  lower : Bytes
  concat : Bool
  nextTarget : Nat
  block : Nat
  off : Nat
  remaining : Nat
  head : Option OwnedRdel
  deriving DecidableEq, Repr

namespace RdelHead

def new (firstBlock rdelBlocks : Nat) (lower : Bytes) : RdelHead :=
  ⟨firstBlock, rdelBlocks, lower, false, 0, 0, 0, 0, none⟩

/-- Behind an entry: at the next one, or at the next block. -/
def past (h : RdelHead) (count next : Nat) : RdelHead :=
  let remaining := (if h.remaining = 0 then count else h.remaining) - 1
  if remaining = 0 then { h with block := h.block + 1, off := 0, remaining := 0 }
  else { h with off := next, remaining := remaining }

variable (sh : Shape) (targets : TargetView)

def fillLoop : Nat → RdelHead → Reads Error RdelHead
  | 0, h => pure h
  | fuel + 1, h =>
    if h.block ≥ h.rdelBlocks then
      if !h.concat then pure h
      else
        match targets.sectionOf h.nextTarget with
        | none => pure h
        | some (.error e) => .fail e
        | some (.ok (first, blocks, lower)) =>
          fillLoop fuel { h with
            nextTarget := h.nextTarget + 1
            firstBlock := first
            rdelBlocks := blocks
            lower := lower
            block := 0
            off := 0
            remaining := 0 }
    else if h.firstBlock + h.block > U64_MAX then .fail (.corruptBlock h.firstBlock)
    else do
      let raw ← Reads.block (h.firstBlock + h.block)
      let count ← Reads.ofExcept (rdelBlockCount sh raw (h.firstBlock + h.block))
      if count = 0 then fillLoop fuel { h with block := h.block + 1, off := 0, remaining := 0 }
      else
        match rdelParseAt raw h.off with
        | none => .fail (.corruptBlock (h.firstBlock + h.block))
        | some (e, next) =>
          match raise h.lower e with
          | none => fillLoop fuel (h.past count next)
          | some entry => pure { h.past count next with head := some entry }

/-- Parses the next tombstone of the section into the head slot, unless it is filled. -/
def fill (fuel : Nat) (h : RdelHead) : Reads Error RdelHead :=
  if h.head.isSome then pure h else fillLoop sh targets fuel h

end RdelHead

/-- Merge order: `start` ascending, `seq` descending. -/
def rdelEntryLess (a b : OwnedRdel) : Bool := a.start < b.start || a.start = b.start && a.seq > b.seq

structure RdelMerger where
  heads : List RdelHead
  pending : Option OwnedRdel
  lastEmitted : Option OwnedRdel
  bottommost : Bool
  oldestSnapshot : Nat
  deriving DecidableEq, Repr

namespace RdelMerger

/-- A merger over the sections of `sources`, one head each, and of the targets of every later call.  A retired source, whose
bit is set, is not read. -/
def new (sources : List TableRef) (retired : Nat) (withTargets bottommost : Bool) (oldestSnapshot : Nat) : RdelMerger where
  heads := (sources.take (COMPACTION_KMAX - 1)).mapIdx (fun i t =>
      if bit retired i then RdelHead.new 0 0 [] else RdelHead.new (t.rdelFirst.getD U64_MAX) t.rdelBlocks t.firstKey) ++
    if withTargets then [{ RdelHead.new 0 0 [] with concat := true }] else []
  pending := none
  lastEmitted := none
  bottommost := bottommost
  oldestSnapshot := oldestSnapshot

/-- The first of the least filled heads: its index and its entry. -/
def minHead (heads : List RdelHead) : Option (Nat × OwnedRdel) :=
  heads.zipIdx.foldl (fun m x =>
    match x.1.head with
    | none => m
    | some e => if m.all fun best => rdelEntryLess e best.2 then some (x.2, e) else m) none

/-- Whether the last emitted tombstone shadows `e` for every live snapshot. -/
def shadowed (m : RdelMerger) (e : OwnedRdel) : Bool :=
  m.lastEmitted.any fun p => p.seq > e.seq && p.seq ≤ m.oldestSnapshot && p.start = e.start && p.stop = e.stop

/-- Moves `e` into the pending slot, unless the drop rule leaves it out. -/
def setPending (m : RdelMerger) (e : OwnedRdel) : RdelMerger :=
  if m.bottommost && decide (e.seq < m.oldestSnapshot) && m.shadowed e then { m with pending := none }
  else { m with pending := some e }

/-- Empties the head slot. -/
def takeHead (m : RdelMerger) (i : Nat) : RdelMerger :=
  { m with heads := m.heads.modify i fun h => { h with head := none } }

variable (sh : Shape) (targets : TargetView) (readFuel : Nat)

/-- Fills every head that is not. -/
def fillAll : List RdelHead → Reads Error (List RdelHead)
  | [] => pure []
  | h :: hs => do
    let h ← h.fill sh targets readFuel
    let hs ← fillAll hs
    return h :: hs

/-- Advances past one merged entry, which is returned; `none` when the merge is exhausted. -/
def nextMerged : Nat → RdelMerger → Reads Error (Option OwnedRdel × RdelMerger)
  | 0, m => pure (none, m)
  | fuel + 1, m => do
    let heads ← fillAll sh targets readFuel m.heads
    let m := { m with heads := heads }
    match minHead heads with
    | none =>
      match m.pending with
      | some p => pure (some p, { m with pending := none, lastEmitted := some p })
      | none => pure (none, m)
    | some (mi, e) =>
      match m.pending with
      | none => nextMerged fuel ((m.setPending e).takeHead mi)
      | some p =>
        if e.seq = p.seq ∧ e.start ≤ p.stop then nextMerged fuel ({ m with pending := some (p.join e) }.takeHead mi)
        else pure (some p, ({ m with lastEmitted := some p }.setPending e).takeHead mi)

/-- All merged entries. -/
def mergeAll : Nat → RdelMerger → Reads Error (List OwnedRdel)
  | 0, _ => pure []
  | fuel + 1, m => do
    let (entry, m) ← m.nextMerged sh targets readFuel fuel
    match entry with
    | none => pure []
    | some p => return p :: (← mergeAll fuel m)

end RdelMerger

/-! ### Filling a head -/

variable {sh : Shape} {blocks : Nat → Bytes} {targets : TargetView}

/-- The entries behind the first `i` of the first block. -/
def unread (i : Nat) (rest : List (List RdelEntry)) : List RdelEntry := (rest.headD []).drop i ++ rest.tail.flatten

theorem unread_cons {b : List RdelEntry} {rest : List (List RdelEntry)} {i : Nat} {e : RdelEntry} (h : b[i]? = some e) :
    unread i (b :: rest) = e :: unread (i + 1) (b :: rest) := by
  obtain ⟨hlt, rfl⟩ := List.getElem?_eq_some_iff.mp h
  simp only [unread, List.headD_cons, List.tail_cons]
  rw [List.drop_eq_getElem_cons hlt, List.cons_append]

theorem unread_done (b : List RdelEntry) (rest : List (List RdelEntry)) : unread b.length (b :: rest) = unread 0 rest := by
  cases rest <;> simp [unread]

namespace RdelHead

/-- The head has yet to read the blocks `rest` of its section, of the first one the entries from `i` on. -/
structure At (sh : Shape) (blocks : Nat → Bytes) (h : RdelHead) (i : Nat) (rest : List (List RdelEntry)) : Prop where
  on : RdelsOn sh blocks (h.firstBlock + h.block) rest
  count : h.rdelBlocks = h.block + rest.length
  off : h.off = rdelOffset (rest.headD []) i
  lt : i = 0 ∨ i < (rest.headD []).length
  remaining : h.remaining = if i = 0 then 0 else (rest.headD []).length - i

/-- What the sections of the targets from `j` on hold. -/
inductive Coming (sh : Shape) (blocks : Nat → Bytes) (targets : TargetView) : Nat → List OwnedRdel → Prop
  | done {j : Nat} : targets.sectionOf j = none → Coming sh blocks targets j []
  | open_ {j first : Nat} {lower : Bytes} {bins : List (List RdelEntry)} {l : List OwnedRdel} :
    targets.sectionOf j = some (.ok (first, bins.length, lower)) → RdelsOn sh blocks first bins →
      Coming sh blocks targets (j + 1) l → Coming sh blocks targets j (bins.flatten.filterMap (raise lower) ++ l)

/-- Only the concatenating head has more than its section to read. -/
def Ahead (sh : Shape) (blocks : Nat → Bytes) (targets : TargetView) (h : RdelHead) (more : List OwnedRdel) : Prop :=
  if h.concat then Coming sh blocks targets h.nextTarget more else more = []

/-- The tombstones a head still has to yield. -/
def Left (sh : Shape) (blocks : Nat → Bytes) (targets : TargetView) (h : RdelHead) (l : List OwnedRdel) : Prop :=
  ∃ i rest more, At sh blocks h i rest ∧ Ahead sh blocks targets h more ∧
    l = h.head.toList ++ ((unread i rest).filterMap (raise h.lower) ++ more)

/-- A loop that ends at `g`, whatever more fuel it is given. -/
def Fills (sh : Shape) (blocks : Nat → Bytes) (targets : TargetView) (h : RdelHead) (l : List OwnedRdel) : Prop :=
  ∃ n g, Left sh blocks targets g l ∧ g.head = l.head? ∧ ∀ fuel ≥ n, (fillLoop sh targets fuel h).eval blocks = .ok g

variable {h : RdelHead} {i : Nat} {rest : List (List RdelEntry)} {more l : List OwnedRdel}

theorem At.tail {b : List RdelEntry} (hat : At sh blocks h i (b :: rest)) :
    At sh blocks { h with block := h.block + 1, off := 0, remaining := 0 } 0 rest := by
  refine ⟨⟨fun c hc => hat.on.block c (by simp [hc]), ?_, fun j c hc => ?_⟩, ?_, rfl, Or.inl rfl, rfl⟩
  · have := hat.on.ids
    simp only [List.length_cons] at this
    show h.firstBlock + (h.block + 1) + _ ≤ _
    omega
  · have := hat.on.sealed (j + 1) c (by simpa using hc)
    rwa [show h.firstBlock + (h.block + 1) + j = h.firstBlock + h.block + (j + 1) by omega]
  · have := hat.count
    simp only [List.length_cons] at this
    show h.rdelBlocks = h.block + 1 + _
    omega

/-- One step of the loop behind an entry. -/
theorem At.past {b : List RdelEntry} (hat : At sh blocks h i (b :: rest)) (hi : i < b.length) :
    ∃ j rest', At sh blocks (h.past b.length (rdelOffset b (i + 1))) j rest' ∧
      unread j rest' = unread (i + 1) (b :: rest) := by
  have hrem := hat.remaining
  have hleft : (if h.remaining = 0 then b.length else h.remaining) = b.length - i := by
    rw [hrem]
    by_cases h0 : i = 0
    · simp [h0]
    · rw [if_neg h0]
      show (if b.length - i = 0 then b.length else b.length - i) = _
      rw [if_neg (by omega)]
  unfold RdelHead.past
  dsimp only
  rw [hleft]
  by_cases hlast : i + 1 = b.length
  · rw [if_pos (by omega)]
    exact ⟨0, rest, hat.tail, by rw [hlast, unread_done]⟩
  · rw [if_neg (by omega)]
    refine ⟨i + 1, b :: rest, ⟨hat.on, hat.count, rfl, Or.inr ?_, ?_⟩, rfl⟩
    · show i + 1 < b.length
      omega
    · show b.length - i - 1 = if i + 1 = 0 then 0 else b.length - (i + 1)
      rw [if_neg (by omega)]
      omega

theorem past_fields (h : RdelHead) (count next : Nat) : (h.past count next).concat = h.concat ∧
    (h.past count next).nextTarget = h.nextTarget ∧ (h.past count next).lower = h.lower ∧
    (h.past count next).head = h.head := by
  unfold RdelHead.past
  dsimp only
  split_ifs <;> exact ⟨rfl, rfl, rfl, rfl⟩

theorem Ahead.congr {g : RdelHead} (hc : g.concat = h.concat) (hn : g.nextTarget = h.nextTarget)
    (ha : Ahead sh blocks targets h more) : Ahead sh blocks targets g more := by
  unfold Ahead at *
  rw [hc, hn]
  exact ha

/-- The loop with a block in front of it. -/
theorem fillLoop_block {b : List RdelEntry} (hat : At sh blocks h i (b :: rest)) {e : RdelEntry} (hi : b[i]? = some e)
    (fuel : Nat) : (fillLoop sh targets (fuel + 1) h).eval blocks =
      (match raise h.lower e with
        | none => fillLoop sh targets fuel (h.past b.length (rdelOffset b (i + 1)))
        | some entry => pure { h.past b.length (rdelOffset b (i + 1)) with head := some entry }).eval blocks := by
  have hb := hat.on.block b (by simp)
  have hcount := hat.count
  have hids := hat.on.ids
  simp only [List.length_cons] at hcount hids
  have hread : blocks (h.firstBlock + h.block) = withCrc (rdelBody sh b) := hat.on.blocks_eq (i := 0) rfl
  have hoff : h.off = rdelOffset b i := hat.off
  have hpos : b.length ≠ 0 := fun hc => hb.ne_nil (List.length_eq_zero_iff.mp hc)
  rw [fillLoop, if_neg (by omega), if_neg (by omega), Reads.eval_bind, Reads.eval_block]
  show Reads.eval blocks (_ >>= _) = _
  rw [Reads.eval_bind, Reads.eval_ofExcept, hread, hb.rdelBlockCount_eq]
  show Reads.eval blocks (if b.length = 0 then _ else _) = _
  rw [if_neg hpos, hoff, hb.rdelParseAt_eq hi]

/-- The loop over the blocks of a section, when it ends well behind them. -/
theorem fills_section (hend : ∀ g : RdelHead, g.concat = h.concat → g.nextTarget = h.nextTarget → g.head = none →
      At sh blocks g 0 [] → Fills sh blocks targets g more)
    (hat : At sh blocks h i rest) (ha : Ahead sh blocks targets h more) (hnone : h.head = none) :
    Fills sh blocks targets h ((unread i rest).filterMap (raise h.lower) ++ more) := by
  -- The induction is on the entries left to read.
  obtain ⟨n, hn⟩ : ∃ n, n = (unread i rest).length := ⟨_, rfl⟩
  induction n generalizing h i rest with
  | zero =>
    cases rest with
    | nil =>
      obtain rfl : i = 0 := by
        rcases hat.lt with h0 | h0
        · exact h0
        · exact absurd h0 (by simp)
      exact hend h rfl rfl hnone hat
    | cons b rest =>
      -- A block is not empty.
      have hpos := List.length_pos_iff.mpr (hat.on.block b (by simp)).ne_nil
      have hlt : i < b.length := by
        rcases hat.lt with h0 | h0
        · omega
        · exact h0
      rw [unread_cons (List.getElem?_eq_getElem hlt)] at hn
      cases hn
  | succ n ih =>
    cases rest with
    | nil =>
      exact absurd hn (by simp [unread])
    | cons b rest =>
      have hpos := List.length_pos_iff.mpr (hat.on.block b (by simp)).ne_nil
      have hlt : i < b.length := by
        rcases hat.lt with h0 | h0
        · omega
        · exact h0
      have hget : b[i]? = some b[i] := List.getElem?_eq_getElem hlt
      obtain ⟨hc, hnt, hlow, hhead⟩ := past_fields h b.length (rdelOffset b (i + 1))
      obtain ⟨j, rest', hat', heq⟩ := hat.past hlt
      rw [unread_cons hget, List.length_cons, ← heq] at hn
      rw [unread_cons hget, ← heq]
      cases hr : raise h.lower b[i] with
      | none =>
        obtain ⟨m, g, hleft, hfirst, hfuel⟩ := ih (h := h.past b.length (rdelOffset b (i + 1)))
          (fun g h1 h2 => hend g (h1.trans hc) (h2.trans hnt)) hat' (ha.congr hc hnt) (hhead.trans hnone) (by omega)
        rw [hlow] at hleft hfirst
        rw [List.filterMap_cons_none hr]
        refine ⟨m + 1, g, hleft, hfirst, fun fuel hle => ?_⟩
        obtain ⟨k, rfl⟩ : ∃ k, fuel = k + 1 := ⟨fuel - 1, by omega⟩
        rw [fillLoop_block hat hget, hr]
        exact hfuel k (by omega)
      | some entry =>
        rw [List.filterMap_cons_some hr]
        refine ⟨1, { h.past b.length (rdelOffset b (i + 1)) with head := some entry },
          ⟨j, rest', more, ⟨hat'.on, hat'.count, hat'.off, hat'.lt, hat'.remaining⟩, ha.congr hc hnt, ?_⟩, rfl,
          fun fuel hle => ?_⟩
        · show _ = _ ++ (List.filterMap (raise (h.past b.length (rdelOffset b (i + 1))).lower) _ ++ _)
          rw [hlow]
          rfl
        · obtain ⟨k, rfl⟩ : ∃ k, fuel = k + 1 := ⟨fuel - 1, by omega⟩
          rw [fillLoop_block hat hget, hr]
          rfl

/-- At the end of its section a single head is done, and the concatenating one opens the next target. -/
theorem fills_end (hat : At sh blocks h 0 []) (ha : Ahead sh blocks targets h more) (hnone : h.head = none) :
    Fills sh blocks targets h more := by
  have hcount := hat.count
  rw [List.length_nil] at hcount
  have hself : ∀ l : List OwnedRdel, l = [] → Ahead sh blocks targets h l → Left sh blocks targets h l := by
    rintro l rfl hl
    exact ⟨0, [], [], hat, hl, by simp [hnone, unread]⟩
  by_cases hc : h.concat = true
  · unfold Ahead at ha
    rw [if_pos hc] at ha
    obtain ⟨j, hj⟩ : ∃ j, j = h.nextTarget := ⟨_, rfl⟩
    rw [← hj] at ha
    induction ha generalizing h with
    | done hnext =>
      refine ⟨1, h, hself [] rfl ?_, hnone, fun fuel hle => ?_⟩
      · unfold Ahead
        rw [if_pos hc, ← hj]
        exact .done hnext
      · obtain ⟨k, rfl⟩ : ∃ k, fuel = k + 1 := ⟨fuel - 1, by omega⟩
        rw [fillLoop, if_pos (by omega), hc, ← hj, hnext]
        rfl
    | @open_ j first lower bins l hnext hon hcoming ih =>
      have hfresh : At sh blocks { h with
          nextTarget := h.nextTarget + 1
          firstBlock := first
          rdelBlocks := bins.length
          lower := lower
          block := 0
          off := 0
          remaining := 0 } 0 bins := ⟨hon, (Nat.zero_add _).symm, rfl, Or.inl rfl, rfl⟩
      have hahead : Ahead sh blocks targets { h with
          nextTarget := h.nextTarget + 1
          firstBlock := first
          rdelBlocks := bins.length
          lower := lower
          block := 0
          off := 0
          remaining := 0 } l := by
        unfold Ahead
        rw [if_pos hc, ← hj]
        exact hcoming
      obtain ⟨n, g, hleft, hfirst, hfuel⟩ := fills_section (fun g h1 h2 hg hatg => by
        have hcount' := hatg.count
        rw [List.length_nil] at hcount'
        refine ih hatg hg hcount' ?_ (h1.trans hc) ?_
        · rintro l rfl hl
          exact ⟨0, [], [], hatg, hl, by simp [hg, unread]⟩
        · rw [h2, ← hj]) hfresh hahead hnone
      have hall : unread 0 bins = bins.flatten := by
        cases bins <;> simp [unread]
      rw [hall] at hleft hfirst
      refine ⟨n + 1, g, hleft, hfirst, fun fuel hle => ?_⟩
      obtain ⟨k, rfl⟩ : ∃ k, fuel = k + 1 := ⟨fuel - 1, by omega⟩
      have hrun := hfuel k (by omega)
      rw [← hj] at hrun
      rw [fillLoop, if_pos (by omega), if_neg (by simp [hc]), ← hj, hnext]
      exact hrun
  · unfold Ahead at ha
    rw [if_neg hc] at ha
    subst ha
    refine ⟨1, h, hself [] rfl ?_, hnone, fun fuel hle => ?_⟩
    · unfold Ahead
      rw [if_neg hc]
    · obtain ⟨k, rfl⟩ : ∃ k, fuel = k + 1 := ⟨fuel - 1, by omega⟩
      rw [fillLoop, if_pos (by omega)]
      simp [hc]

/-- Filling exposes the first tombstone that is left. -/
theorem fill_spec (hl : Left sh blocks targets h l) : ∃ n g, Left sh blocks targets g l ∧ g.head = l.head? ∧
    ∀ fuel ≥ n, (h.fill sh targets fuel).eval blocks = .ok g := by
  unfold fill
  cases hh : h.head with
  | some e =>
    refine ⟨0, h, hl, ?_, fun fuel _ => rfl⟩
    obtain ⟨i, rest, more, -, -, rfl⟩ := hl
    rw [hh]
    rfl
  | none =>
    obtain ⟨i, rest, more, hat, ha, rfl⟩ := hl
    rw [hh, Option.toList_none, List.nil_append]
    refine fills_section (fun g h1 h2 hg hatg => fills_end hatg (ha.congr h1 h2) hg) hat ha hh

/-- Taking the exposed tombstone leaves the others. -/
theorem Left.take {e : OwnedRdel} (hl : Left sh blocks targets h (e :: l)) (hh : h.head = some e) :
    Left sh blocks targets { h with head := none } l := by
  obtain ⟨i, rest, more, hat, ha, heq⟩ := hl
  rw [hh, Option.toList_some, List.singleton_append, List.cons.injEq] at heq
  exact ⟨i, rest, more, ⟨hat.on, hat.count, hat.off, hat.lt, hat.remaining⟩, ha, heq.2⟩

end RdelHead

/-! ### A step of the merge -/

theorem start_le_of_less {a b : OwnedRdel} (h : rdelEntryLess a b = true) : a.start ≤ b.start := by
  unfold rdelEntryLess at h
  simp only [Bool.or_eq_true, Bool.and_eq_true, decide_eq_true_eq] at h
  rcases h with h | h
  · exact le_of_lt h
  · exact le_of_eq h.1

theorem start_le_of_not_less {a b : OwnedRdel} (h : rdelEntryLess a b = false) : b.start ≤ a.start := by
  unfold rdelEntryLess at h
  simp only [Bool.or_eq_false_iff, decide_eq_false_iff_not] at h
  exact not_lt.mp h.1

namespace RdelMerger

open RdelHead

/-- A head that the fold has chosen is filled, and no filled head starts below it. -/
def Chosen (heads : List RdelHead) : Option (Nat × OwnedRdel) → Prop
  | none => ∀ h ∈ heads, h.head = none
  | some (i, e) => (∃ h, heads[i]? = some h ∧ h.head = some e) ∧ ∀ h ∈ heads, ∀ x ∈ h.head, e.start ≤ x.start

theorem minHead_spec (heads : List RdelHead) : Chosen heads (minHead heads) := by
  unfold minHead
  induction heads using List.reverseRecOn with
  | nil => exact fun h hh => absurd hh (by simp)
  | append_singleton heads h ih =>
    rw [List.zipIdx_append, List.foldl_append, List.zipIdx_singleton, List.foldl_cons, List.foldl_nil]
    generalize heads.zipIdx.foldl _ none = m at ih ⊢
    dsimp only
    rw [Nat.zero_add]
    cases hh : h.head with
    | none =>
      cases m with
      | none =>
        intro g hg
        rcases List.mem_append.mp hg with hg | hg
        · exact ih g hg
        · rw [List.mem_singleton.mp hg, hh]
      | some best =>
        obtain ⟨⟨g, hg, hge⟩, hmin⟩ := ih
        refine ⟨⟨g, ?_, hge⟩, fun g' hg' x hx => ?_⟩
        · rw [List.getElem?_append_left (List.getElem?_eq_some_iff.mp hg).1]
          exact hg
        · rcases List.mem_append.mp hg' with hg' | hg'
          · exact hmin g' hg' x hx
          · rw [List.mem_singleton.mp hg', hh] at hx
            cases hx
    | some e =>
      have hnew : (heads ++ [h])[heads.length]? = some h := by simp
      cases m with
      | none =>
        refine ⟨⟨h, hnew, hh⟩, fun g hg x hx => ?_⟩
        rcases List.mem_append.mp hg with hg | hg
        · rw [ih g hg] at hx
          cases hx
        · rw [List.mem_singleton.mp hg, hh] at hx
          obtain rfl := Option.some.inj hx
          exact le_rfl
      | some best =>
        obtain ⟨⟨g, hg, hge⟩, hmin⟩ := ih
        cases hless : rdelEntryLess e best.2 with
        | true =>
          have hall : (some best).all (fun best => rdelEntryLess e best.2) = true := hless
          show Chosen (heads ++ [h]) (if (some best).all _ then _ else _)
          rw [if_pos hall]
          refine ⟨⟨h, hnew, hh⟩, fun g' hg' x hx => ?_⟩
          rcases List.mem_append.mp hg' with hg' | hg'
          · exact le_trans (start_le_of_less hless) (hmin g' hg' x hx)
          · rw [List.mem_singleton.mp hg', hh] at hx
            obtain rfl := Option.some.inj hx
            exact le_rfl
        | false =>
          have hall : ¬ (some best).all (fun best => rdelEntryLess e best.2) = true := by
            show ¬ rdelEntryLess e best.2 = true
            rw [hless]
            exact Bool.false_ne_true
          show Chosen (heads ++ [h]) (if (some best).all _ then _ else _)
          rw [if_neg hall]
          refine ⟨⟨g, ?_, hge⟩, fun g' hg' x hx => ?_⟩
          · rw [List.getElem?_append_left (List.getElem?_eq_some_iff.mp hg).1]
            exact hg
          · rcases List.mem_append.mp hg' with hg' | hg'
            · exact hmin g' hg' x hx
            · rw [List.mem_singleton.mp hg', hh] at hx
              obtain rfl := Option.some.inj hx
              exact start_le_of_not_less hless

variable {heads : List RdelHead} {rest : List (List OwnedRdel)}

/-- Filling all heads. -/
theorem fill_all (hl : List.Forall₂ (Left sh blocks targets) heads rest) : ∃ n gs,
    List.Forall₂ (fun g l => Left sh blocks targets g l ∧ g.head = l.head?) gs rest ∧
      ∀ fuel ≥ n, (fillAll sh targets fuel heads).eval blocks = .ok gs := by
  induction hl with
  | nil => exact ⟨0, [], .nil, fun fuel _ => rfl⟩
  | cons h _ ih =>
    obtain ⟨n, gs, hgs, hfuel⟩ := ih
    obtain ⟨k, g, hleft, hfirst, hfill⟩ := fill_spec h
    refine ⟨max n k, g :: gs, .cons ⟨hleft, hfirst⟩ hgs, fun fuel hle => ?_⟩
    rw [fillAll, Reads.eval_bind, hfill fuel (le_trans (le_max_right n k) hle)]
    show Reads.eval blocks (_ >>= _) = _
    rw [Reads.eval_bind, hfuel fuel (le_trans (le_max_left n k) hle)]
    rfl

/-- Taking the exposed tombstone of one head. -/
theorem take_head (hl : List.Forall₂ (fun g l => Left sh blocks targets g l ∧ g.head = l.head?) heads rest) {i : Nat}
    {h : RdelHead} {e : OwnedRdel} (hi : heads[i]? = some h) (hh : h.head = some e) : ∃ a l b, rest = a ++ (e :: l) :: b ∧
      List.Forall₂ (Left sh blocks targets) (heads.modify i fun h => { h with head := none }) (a ++ l :: b) := by
  induction hl generalizing i with
  | nil => cases hi
  | @cons g l gs rest hgl hrest ih =>
    cases i with
    | zero =>
      obtain rfl := Option.some.inj hi
      obtain ⟨hleft, hfirst⟩ := hgl
      rw [hh] at hfirst
      obtain ⟨x, l, rfl⟩ : ∃ x l', l = x :: l' := by
        cases l with
        | nil => cases hfirst
        | cons x l => exact ⟨x, l, rfl⟩
      obtain rfl := Option.some.inj hfirst
      refine ⟨[], l, rest, rfl, ?_⟩
      rw [List.modify_zero_cons]
      exact .cons (hleft.take hh) (hrest.imp fun g l h => h.1)
    | succ i =>
      obtain ⟨a, l', b, rfl, hforall⟩ := ih (by simpa using hi)
      refine ⟨l :: a, l', b, rfl, ?_⟩
      rw [List.modify_succ_cons]
      exact .cons hgl.1 hforall

/-- The least head starts at or below everything that is left. -/
theorem least_left (hl : List.Forall₂ (fun g l => Left sh blocks targets g l ∧ g.head = l.head?) heads rest)
    (hs : ∀ l ∈ rest, Span.Sorted l) {e : OwnedRdel} (hmin : ∀ h ∈ heads, ∀ x ∈ h.head, e.start ≤ x.start) :
    ∀ x ∈ rest.flatten, e.start ≤ x.start := by
  induction hl with
  | nil => exact fun x hx => absurd hx (by simp)
  | @cons g l gs rest hgl _ ih =>
    intro x hx
    rw [List.flatten_cons] at hx
    rcases List.mem_append.mp hx with hx | hx
    · cases l with
      | nil => cases hx
      | cons y l =>
        have hy : e.start ≤ y.start := hmin g (by simp) y hgl.2
        have hsort := List.pairwise_cons.mp (hs (y :: l) (by simp))
        rcases List.mem_cons.mp hx with rfl | hx
        · exact hy
        · exact le_trans hy (hsort.1 x hx)
    · exact ih (fun l hl => hs l (by simp [hl])) (fun h hh => hmin h (by simp [hh])) x hx

theorem nothing_left (hl : List.Forall₂ (fun g l => Left sh blocks targets g l ∧ g.head = l.head?) heads rest)
    (hnone : ∀ h ∈ heads, h.head = none) : rest.flatten = [] := by
  induction hl with
  | nil => rfl
  | @cons g l gs rest hgl _ ih =>
    have hg := hgl.2
    rw [hnone g (by simp)] at hg
    rw [List.flatten_cons, List.head?_eq_none_iff.mp hg.symm, ih fun h hh => hnone h (by simp [hh])]
    rfl

/-- The heads have `rest` left of a merge that has emitted `out`. -/
structure Holds (sh : Shape) (blocks : Nat → Bytes) (targets : TargetView) (oldest : Nat) (all : List OwnedRdel)
    (m : RdelMerger) (rest : List (List OwnedRdel)) (out : List OwnedRdel) : Prop where
  left : List.Forall₂ (Left sh blocks targets) m.heads rest
  merging : Span.Merging (oldest ≤ ·) all rest m.pending out
  last : ∀ p ∈ m.lastEmitted, p ∈ out
  oldest_eq : m.oldestSnapshot = oldest

/-- The tombstones not yet emitted. -/
def weight (m : RdelMerger) (rest : List (List OwnedRdel)) : Nat := rest.flatten.length + m.pending.toList.length

variable {oldest : Nat} {all out : List OwnedRdel} {m : RdelMerger}

theorem setPending_fields (m : RdelMerger) (e : OwnedRdel) : (m.setPending e).heads = m.heads ∧
    (m.setPending e).lastEmitted = m.lastEmitted ∧ (m.setPending e).oldestSnapshot = m.oldestSnapshot := by
  unfold setPending
  split <;> exact ⟨rfl, rfl, rfl⟩

/-- The tombstone taken is held back, or left out because the last emitted one shadows it. -/
theorem setPending_spec {a b : List (List OwnedRdel)} {e : OwnedRdel} {l : List OwnedRdel} {pending : Option OwnedRdel}
    (h : Span.Merging (oldest ≤ ·) all (a ++ (e :: l) :: b) pending out)
    (hmin : ∀ x ∈ (a ++ (e :: l) :: b).flatten, e.start ≤ x.start) (hold : m.oldestSnapshot = oldest)
    (hlast : ∀ p ∈ m.lastEmitted, p ∈ out ++ pending.toList) :
    Span.Merging (oldest ≤ ·) all (a ++ l :: b) (m.setPending e).pending (out ++ pending.toList) := by
  unfold setPending
  by_cases hdrop : (m.bottommost && decide (e.seq < m.oldestSnapshot) && m.shadowed e) = true
  · rw [if_pos hdrop]
    rw [Bool.and_eq_true, Bool.and_eq_true] at hdrop
    have hshadow := hdrop.2
    unfold shadowed at hshadow
    cases hp : m.lastEmitted with
    | none =>
      rw [hp] at hshadow
      cases hshadow
    | some p =>
      rw [hp] at hshadow
      simp only [Option.any_some, Bool.and_eq_true, decide_eq_true_eq] at hshadow
      obtain ⟨⟨⟨hnewer, hvisible⟩, hstart⟩, hstop⟩ := hshadow
      exact h.hidden (hlast p hp) hstart hstop hnewer fun t ht => hvisible.trans (hold.trans_le ht)
  · rw [if_neg hdrop]
    exact h.started hmin

/-- What a call of the merger returns, and leaves. -/
def Next (m m' : RdelMerger) (rest rest' : List (List OwnedRdel)) (out out' : List OwnedRdel) : Option OwnedRdel → Prop
  | none => out' = out ∧ rest'.flatten = [] ∧ m'.pending = none
  | some p => out' = out ++ [p] ∧ m'.weight rest' < m.weight rest

theorem nextMerged_spec (h : Holds sh blocks targets oldest all m rest out) : ∃ n m' rest' out' res,
    Holds sh blocks targets oldest all m' rest' out' ∧ Next m m' rest rest' out out' res ∧
      ∀ readFuel ≥ n, ∀ fuel ≥ n, (m.nextMerged sh targets readFuel fuel).eval blocks = .ok (res, m') := by
  -- Every turn of the loop that emits nothing takes one tombstone.
  obtain ⟨k, hk⟩ : ∃ k, k = rest.flatten.length := ⟨_, rfl⟩
  induction k using Nat.strong_induction_on generalizing m rest with
  | _ k ih =>
  subst hk
  obtain ⟨n, gs, hgs, hfill⟩ := fill_all h.left
  have hleft : List.Forall₂ (Left sh blocks targets) gs rest := hgs.imp fun g l h => h.1
  have hrun : ∀ readFuel ≥ n, ∀ fuel, (m.nextMerged sh targets readFuel (fuel + 1)).eval blocks =
      (match minHead gs with
        | none =>
          match m.pending with
          | some p => pure (some p, { m with heads := gs, pending := none, lastEmitted := some p })
          | none => pure (none, { m with heads := gs })
        | some (mi, e) =>
          match m.pending with
          | none => nextMerged sh targets readFuel fuel (({ m with heads := gs }.setPending e).takeHead mi)
          | some p =>
            if e.seq = p.seq ∧ e.start ≤ p.stop then
              nextMerged sh targets readFuel fuel ({ m with heads := gs, pending := some (p.join e) }.takeHead mi)
            else pure (some p, ({ m with heads := gs, lastEmitted := some p }.setPending e).takeHead mi)).eval blocks := by
    intro readFuel hle fuel
    rw [nextMerged, Reads.eval_bind, hfill readFuel hle]
    rfl
  cases hc : minHead gs with
  | none =>
    have hspec := minHead_spec gs
    rw [hc] at hspec
    have hnil : rest.flatten = [] := nothing_left hgs hspec
    rw [hc] at hrun
    cases hp : m.pending with
    | none =>
      refine ⟨n + 1, { m with heads := gs }, rest, out, none, ⟨hleft, h.merging, h.last, h.oldest_eq⟩, ⟨rfl, hnil, hp⟩, ?_⟩
      intro readFuel hread fuel hle
      obtain ⟨k, rfl⟩ : ∃ k, fuel = k + 1 := ⟨fuel - 1, by omega⟩
      rw [hrun readFuel (by omega), hp]
      rfl
    | some p =>
      have hflush := h.merging.flushed
      rw [hp, Option.toList_some] at hflush
      refine ⟨n + 1, { m with heads := gs, pending := none, lastEmitted := some p }, rest, out ++ [p], some p,
        ⟨hleft, hflush, ?_, h.oldest_eq⟩, ⟨rfl, ?_⟩, ?_⟩
      · intro q hq
        obtain rfl := Option.some.inj hq
        simp
      · unfold weight
        rw [hp]
        simp
      · intro readFuel hread fuel hle
        obtain ⟨k, rfl⟩ : ∃ k, fuel = k + 1 := ⟨fuel - 1, by omega⟩
        rw [hrun readFuel (by omega), hp]
        rfl
  | some x =>
    obtain ⟨mi, e⟩ := x
    have hspec := minHead_spec gs
    rw [hc] at hspec
    obtain ⟨⟨g, hg, hge⟩, hle⟩ := hspec
    have hmin := least_left hgs h.merging.streams hle
    obtain ⟨a, l, b, rfl, htaken⟩ := take_head hgs hg hge
    have hlen : (a ++ l :: b).flatten.length + 1 = (a ++ (e :: l) :: b).flatten.length := by simp; omega
    rw [hc] at hrun
    cases hp : m.pending with
    | none =>
      obtain ⟨h1, h2, h3⟩ := setPending_fields { m with heads := gs } e
      have hmerge := h.merging
      rw [hp] at hmerge
      have hpend := setPending_spec (m := { m with heads := gs }) hmerge hmin h.oldest_eq (by simpa using h.last)
      rw [Option.toList_none, List.append_nil] at hpend
      have hholds : Holds sh blocks targets oldest all (({ m with heads := gs }.setPending e).takeHead mi)
          (a ++ l :: b) out := by
        refine ⟨?_, hpend, ?_, h3.trans h.oldest_eq⟩
        · show List.Forall₂ _ (({ m with heads := gs }.setPending e).heads.modify mi _) _
          rw [h1]
          exact htaken
        · show ∀ p ∈ ({ m with heads := gs }.setPending e).lastEmitted, p ∈ out
          rw [h2]
          exact h.last
      obtain ⟨k, m', rest', out', res, hm', hnext, hfuel⟩ := ih _ (by omega) hholds rfl
      refine ⟨max n k + 1, m', rest', out', res, hm', ?_, ?_⟩
      · cases res with
        | none => exact hnext
        | some p =>
          refine ⟨hnext.1, hnext.2.trans_le ?_⟩
          have hone : ({ m with heads := gs }.setPending e).pending.toList.length ≤ 1 := Option.length_toList_le
          show (a ++ l :: b).flatten.length + ({ m with heads := gs }.setPending e).pending.toList.length ≤ _
          unfold weight
          omega
      · intro readFuel hread fuel hfl
        obtain ⟨f, rfl⟩ : ∃ f, fuel = f + 1 := ⟨fuel - 1, by omega⟩
        rw [hrun readFuel (by omega), hp]
        exact hfuel readFuel (by omega) f (by omega)
    | some p =>
      have hmerge := h.merging
      rw [hp] at hmerge
      by_cases hjoin : e.seq = p.seq ∧ e.start ≤ p.stop
      · have hholds : Holds sh blocks targets oldest all ({ m with heads := gs, pending := some (p.join e) }.takeHead mi)
            (a ++ l :: b) out := ⟨htaken, hmerge.joined hmin rfl hjoin.1 hjoin.2, h.last, h.oldest_eq⟩
        obtain ⟨k, m', rest', out', res, hm', hnext, hfuel⟩ := ih _ (by omega) hholds rfl
        refine ⟨max n k + 1, m', rest', out', res, hm', ?_, ?_⟩
        · cases res with
          | none => exact hnext
          | some q =>
            refine ⟨hnext.1, hnext.2.trans_le ?_⟩
            show (a ++ l :: b).flatten.length + 1 ≤ _
            unfold weight
            omega
        · intro readFuel hread fuel hfl
          obtain ⟨f, rfl⟩ : ∃ f, fuel = f + 1 := ⟨fuel - 1, by omega⟩
          rw [hrun readFuel (by omega), hp]
          dsimp only
          rw [if_pos hjoin]
          exact hfuel readFuel (by omega) f (by omega)
      · obtain ⟨h1, h2, h3⟩ := setPending_fields { m with heads := gs, lastEmitted := some p } e
        have hpend := setPending_spec (m := { m with heads := gs, lastEmitted := some p }) hmerge hmin h.oldest_eq (by
          intro q hq
          obtain rfl := Option.some.inj hq
          simp)
        refine ⟨n + 1, ({ m with heads := gs, lastEmitted := some p }.setPending e).takeHead mi, a ++ l :: b, out ++ [p],
          some p, ⟨?_, hpend, ?_, h3.trans h.oldest_eq⟩, ⟨rfl, ?_⟩, ?_⟩
        · show List.Forall₂ _ (({ m with heads := gs, lastEmitted := some p }.setPending e).heads.modify mi _) _
          rw [h1]
          exact htaken
        · show ∀ q ∈ ({ m with heads := gs, lastEmitted := some p }.setPending e).lastEmitted, q ∈ out ++ [p]
          rw [h2]
          intro q hq
          obtain rfl := Option.some.inj hq
          simp
        · have hone : ({ m with heads := gs, lastEmitted := some p }.setPending e).pending.toList.length ≤ 1 :=
            Option.length_toList_le
          show (a ++ l :: b).flatten.length +
            ({ m with heads := gs, lastEmitted := some p }.setPending e).pending.toList.length < _
          have hw : m.weight (a ++ (e :: l) :: b) = (a ++ (e :: l) :: b).flatten.length + 1 := by
            rw [weight, hp]
            rfl
          omega
        · intro readFuel hread fuel hfl
          obtain ⟨f, rfl⟩ : ∃ f, fuel = f + 1 := ⟨fuel - 1, by omega⟩
          rw [hrun readFuel (by omega), hp]
          dsimp only
          rw [if_neg hjoin]
          rfl

/-- With enough fuel the merge ends, and what it emitted answers like its inputs. -/
theorem mergeAll_spec (h : Holds sh blocks targets oldest all m rest out) : ∃ n m' rest' more,
    Holds sh blocks targets oldest all m' rest' (out ++ more) ∧ rest'.flatten = [] ∧ m'.pending = none ∧
      ∀ readFuel ≥ n, ∀ fuel ≥ n, (m.mergeAll sh targets readFuel fuel).eval blocks = .ok more := by
  obtain ⟨k, hk⟩ : ∃ k, k = m.weight rest := ⟨_, rfl⟩
  induction k using Nat.strong_induction_on generalizing m rest out with
  | _ k ih =>
  obtain ⟨n, m', rest', out', res, hm', hnext, hfuel⟩ := nextMerged_spec h
  cases res with
  | none =>
    obtain ⟨rfl, hnil, hpend⟩ := hnext
    refine ⟨n + 1, m', rest', [], by rwa [List.append_nil], hnil, hpend, fun readFuel hread fuel hle => ?_⟩
    obtain ⟨f, rfl⟩ : ∃ f, fuel = f + 1 := ⟨fuel - 1, by omega⟩
    rw [mergeAll, Reads.eval_bind, hfuel readFuel (by omega) f (by omega)]
    rfl
  | some p =>
    obtain ⟨rfl, hlt⟩ := hnext
    obtain ⟨j, m'', rest'', more, hm'', hnil, hpend, hall⟩ := ih _ (by omega) hm' rfl
    rw [List.append_assoc] at hm''
    refine ⟨max n j + 1, m'', rest'', p :: more, hm'', hnil, hpend, fun readFuel hread fuel hle => ?_⟩
    obtain ⟨f, rfl⟩ : ∃ f, fuel = f + 1 := ⟨fuel - 1, by omega⟩
    rw [mergeAll, Reads.eval_bind, hfuel readFuel (by omega) f (by omega)]
    show Reads.eval blocks (_ >>= _) = _
    rw [Reads.eval_bind, hall readFuel (by omega) f (by omega)]
    rfl

end RdelMerger

end Horton
