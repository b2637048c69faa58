import Horton.Lib.Reading
import Horton.Scan.RevBlock

/-!
# The cursors of a reverse scan

The table cursor of `RevScan`: `parkCursorRev` searches its block backwards and walks to earlier blocks.  A version run can
straddle blocks, and a block can begin in the middle of one: `resolveRun` follows it back, so that the newest visible version
of the key comes out (`resolveRun_spec`), and the cursor stands where the sources of the scan say (`parkCursorRev_spec`).
-/

namespace Horton

open BlockDev Sstable

def Manifest.findTable (m : Manifest) (id : Nat) : Option TableRef := m.tables.find? fun t => decide (t.id = id)

/-- The position of one table in a reverse scan; there is no offset to resume at, every park searches the block anew. -/
structure RevCursor where
  tableId : Nat
  nodeId : Nat
  sealWall : Nat
  firstBlock : Nat
  blockIdx : Nat
  blockId : Nat
  off : Nat
  stop : Nat
  live : Bool
  key : Bytes
  seq : Nat
  tombstone : Bool
  valLen : Nat
  expireAt : Nat
  deriving DecidableEq, Repr

/-- An entry and where it was found. -/
structure RevHit where
  entry : SstEntry
  off : Nat
  blockId : Nat
  stop : Nat
  blockIdx : Nat
  deriving DecidableEq, Repr

namespace RevCursor

open Scans

variable (sh : Shape)

/-- Parked on `hit`. -/
def onHit (cur : RevCursor) (hit : RevHit) : RevCursor :=
  { cur with
    key := hit.entry.key
    seq := hit.entry.seq
    tombstone := hit.entry.tombstone
    valLen := hit.entry.val.length
    expireAt := hit.entry.expireAt
    off := hit.off
    blockId := hit.blockId
    stop := hit.stop
    blockIdx := hit.blockIdx
    live := true }

/-- Follows a run of versions of `key` into the blocks below `idx`; `best` stands when they hold no visible version. -/
def resolveRun (first : Nat) (key : Bytes) (maxSeq : Nat) : Nat → Option RevHit → Reads Error (Option RevHit)
  | 0, best => pure best
  | idx + 1, best =>
    if first + idx > U64_MAX then .fail (.corruptBlock first)
    else do
      let (body, stop) ← loadBlock sh (first + idx)
      match ← Reads.ofExcept (searchBlockRev sh body (first + idx) stop (some (key, true)) maxSeq) with
      | some (entry, off) =>
        if entry.key = key then do
          let fkey ← Reads.ofExcept (blockFirstKey body stop (first + idx))
          -- The run can only straddle further while it starts at this block's first key.
          if entry.key ≠ fkey then return some ⟨entry, off, first + idx, stop, idx⟩
          else resolveRun first key maxSeq idx (some ⟨entry, off, first + idx, stop, idx⟩)
        else return best
      | none => return best

/-- The head for a candidate of the current block. -/
def resolve (cur : RevCursor) (body : Bytes) (entry : SstEntry) (off maxSeq : Nat) : Reads Error RevHit := do
  let fkey ← Reads.ofExcept (blockFirstKey body cur.stop cur.blockId)
  if cur.blockIdx > 0 ∧ entry.key = fkey then
    let best ← resolveRun sh cur.firstBlock entry.key maxSeq cur.blockIdx none
    return best.getD ⟨entry, off, cur.blockId, cur.stop, cur.blockIdx⟩
  else return ⟨entry, off, cur.blockId, cur.stop, cur.blockIdx⟩

/-- One round of `park_cursor_rev`; the flag asks for another round.  Below the live bound of its table a cursor is done. -/
def parkRound (db : Db) (bound : Bound) (maxSeq : Nat) (cur : RevCursor) : Reads Error (RevCursor × Bool) := do
  let body ← readDataBlock sh cur.blockId
  match ← Reads.ofExcept (searchBlockRev sh body cur.blockId cur.stop bound maxSeq) with
  | some (entry, off) =>
    if (db.manifest.findTable cur.tableId).any fun t => decide (entry.key < t.firstKey) then
      return ({ cur with live := false }, false)
    else do
      let hit ← resolve sh cur body entry off maxSeq
      return (cur.onHit hit, false)
  | none =>
    if cur.blockIdx = 0 then return ({ cur with live := false }, false)
    else if cur.firstBlock + (cur.blockIdx - 1) > U64_MAX then .fail (.corruptBlock cur.firstBlock)
    else do
      let (_, stop) ← loadBlock sh (cur.firstBlock + (cur.blockIdx - 1))
      return ({ cur with blockId := cur.firstBlock + (cur.blockIdx - 1), blockIdx := cur.blockIdx - 1, stop := stop }, true)

def parkRounds (db : Db) (bound : Bound) (maxSeq : Nat) : Nat → Prog RevCursor Error Unit
  | 0 => pure ()
  | fuel + 1 => do
    let cur ← Prog.get
    if cur.live then do
      let (cur', more) ← (parkRound sh db bound maxSeq cur).run .device
      Prog.set cur'
      if more then parkRounds db bound maxSeq fuel else pure ()
    else pure ()

def parkCursor (db : Db) (bound : Bound) (maxSeq : Nat) : Prog RevCursor Error Unit := do
  let cur ← Prog.get
  parkRounds sh db bound maxSeq (cur.blockIdx + 1)

/-- Moves down while the head sits on `key`. -/
def passRounds (db : Db) (maxSeq : Nat) (key : Bytes) : Nat → Prog RevCursor Error Unit
  | 0 => pure ()
  | fuel + 1 => do
    let cur ← Prog.get
    if cur.live && cur.key = key then do
      parkCursor sh db (some (key, false)) maxSeq
      passRounds db maxSeq key fuel
    else pure ()

def passKey (db : Db) (maxSeq : Nat) (key : Bytes) : Prog RevCursor Error Unit := do
  let cur ← Prog.get
  passRounds sh db maxSeq key ((cur.blockIdx + 1) * sh.BLOCK + 1)

/-- The data block to start at, counted from the first: the last one that starts at or below `start`; `none` when all start
above. -/
def startBlock (tref : TableRef) (footer dataBlocks : Nat) (start : Bytes) : Reads Error (Option Nat) := do
  let (payload, indexId) ← readIndex sh footer
  if start.isEmpty then return some (dataBlocks - 1)
  else
    match ← Reads.ofExcept (indexLastLeBlock payload start indexId) with
    | some id => if id < tref.dataFirst then .fail (.corruptBlock id) else return some (id - tref.dataFirst)
    | none => return none

/-- A cursor over `tref` in its start block; `none` for a table without data blocks or above `start`. -/
def init (tref : TableRef) (start : Bytes) : Reads Error (Option RevCursor) :=
  match tref.dataBlocks with
  | none => .fail (.corruptBlock tref.firstBlock)
  | some dataBlocks =>
    if dataBlocks = 0 then pure none
    else match tref.footerBlock with
      | none => .fail .corruptManifest
      | some footer => do
        match ← startBlock sh tref footer dataBlocks start with
        | none => return none
        | some blockIdx =>
          if blockIdx ≥ dataBlocks then .fail (.corruptBlock tref.firstBlock)
          else if tref.dataFirst + blockIdx > U64_MAX then .fail (.corruptBlock tref.firstBlock)
          else do
            let (_, stop) ← loadBlock sh (tref.dataFirst + blockIdx)
            return some ⟨tref.id, tref.nodeId, tref.sealWall, tref.dataFirst, blockIdx, tref.dataFirst + blockIdx, 0, stop,
              true, [], 0, false, 0, 0⟩

/-- The head of a live cursor. -/
def head (cur : RevCursor) : Option Scans.Head :=
  if cur.live then
    some ⟨cur.key, .table cur.nodeId cur.sealWall cur.seq, cur.tombstone, cur.valLen, cur.expireAt,
      .block cur.blockId cur.off cur.stop⟩
  else none

/-! ### Where a cursor stands -/

variable {sh} {db : Db} {d : Device} {blocks : Nat → Bytes} {base k : Nat} {bs : List (List SstEntry)}
  {rdelBlocks minSeq maxSeq : Nat} {cur : RevCursor} {b : List SstEntry} {bound : Bound} {i j m : Nat} {e : SstEntry}
  {key : Bytes} {o : Option SstEntry} {hit : Option RevHit} {t : TableRef}

/-- The cursor is in data block `i`. -/
structure At (sh : Shape) (base : Nat) (bs : List (List SstEntry)) (cur : RevCursor) (i : Nat) (b : List SstEntry) :
    Prop where
  firstBlock_eq : cur.firstBlock = base
  blockIdx_eq : cur.blockIdx = i
  blockId_eq : cur.blockId = base + i
  stop_eq : cur.stop = rstartOf sh b
  block : bs[i]? = some b

/-- The place of an entry in a table. -/
def FoundAt (sh : Shape) (base : Nat) (bs : List (List SstEntry)) (e : SstEntry) (hit : RevHit) : Prop :=
  ∃ i b m, bs[i]? = some b ∧ b[m]? = some e ∧ hit = ⟨stored e, offsetOf b m, base + i, rstartOf sh b, i⟩

/-- The place of an entry that there may be. -/
def Located (sh : Shape) (base : Nat) (bs : List (List SstEntry)) (o : Option SstEntry) (hit : Option RevHit) : Prop :=
  match o with
  | none => hit = none
  | some e => ∃ x, hit = some x ∧ FoundAt sh base bs e x

/-- The cursor is parked on the entry `o`; `none` for one that is done. -/
inductive Behind (sh : Shape) (base : Nat) (bs : List (List SstEntry)) (cur : RevCursor) : Option SstEntry → Prop
  | dead (h : cur.live = false) : Behind sh base bs cur none
  | parked {e : SstEntry} {hit : RevHit} (live : cur.live = true) (first : cur.firstBlock = base)
      (found : FoundAt sh base bs e hit) (head : cur = cur.onHit hit) : Behind sh base bs cur (some e)

/-- The first version of `key` that a scan at `maxSeq` sees. -/
def newest (l : List SstEntry) (key : Bytes) (maxSeq : Nat) : Option SstEntry :=
  (l.filter (sees maxSeq)).find? fun e => decide (e.key = key)

theorem newest_append (l l' : List SstEntry) (key : Bytes) (maxSeq : Nat) :
    newest (l ++ l') key maxSeq = (newest l key maxSeq).or (newest l' key maxSeq) := by
  unfold newest
  rw [List.filter_append, List.find?_append]

theorem newest_eq_none {l : List SstEntry} (h : ∀ e ∈ l, e.key = key → maxSeq < e.seq) : newest l key maxSeq = none := by
  unfold newest
  rw [List.find?_eq_none]
  intro e he hkey
  obtain ⟨hmem, hsees⟩ := List.mem_filter.mp he
  have := h e hmem (of_decide_eq_true hkey)
  unfold sees at hsees
  have := of_decide_eq_true hsees
  omega

/-- The newest version of a key is the head of a search that is bounded by the key. -/
theorem newest_of_isTop {l : List SstEntry} (h : IsTop l maxSeq (some (key, true)) o) :
    newest l key maxSeq = o.filter fun e => decide (e.key = key) := by
  have hok : boundOk (some (key, true)) key = true := by unfold boundOk; simp
  refine (h.filter_eq hok fun a ha => ?_).symm
  subst ha
  have := h.1
  unfold boundOk at this
  simp only [Bool.true_and, Bool.or_eq_true, decide_eq_true_eq] at this
  exact this.elim le_of_lt Eq.le

section Sorted

variable (hs : bs.flatten.Pairwise SstEntry.Before)

include hs

theorem before_of_lt {p q : Nat} {b b' : List SstEntry} (hpq : p < q) (hp : bs[p]? = some b) (hq : bs[q]? = some b') :
    ∀ x ∈ b, ∀ y ∈ b', SstEntry.Before x y := by
  rw [← List.take_append_drop q bs, List.flatten_append, List.pairwise_append] at hs
  intro x hx y hy
  refine hs.2.2 x ?_ y ?_
  · exact List.mem_flatten.mpr ⟨b, List.mem_of_getElem? ((List.getElem?_take_of_lt hpq).trans hp), hx⟩
  · exact List.mem_flatten.mpr ⟨b', List.mem_of_getElem? (i := 0) (by simpa using hq), hy⟩

theorem before_of_take {q : Nat} (hq : bs[q]? = some b) : ∀ x ∈ (bs.take q).flatten, ∀ y ∈ b, SstEntry.Before x y := by
  intro x hx y hy
  obtain ⟨b', hb', hx⟩ := List.mem_flatten.mp hx
  obtain ⟨p, hp⟩ := List.getElem?_of_mem hb'
  have hlt : p < q := by
    have := (List.getElem?_eq_some_iff.mp hp).1
    rw [List.length_take] at this
    omega
  rw [List.getElem?_take_of_lt hlt] at hp
  exact before_of_lt hs hlt hp hq x hx y hy

theorem block_before (hi : bs[i]? = some b) : b.Pairwise SstEntry.Before :=
  hs.sublist (List.sublist_flatten_of_mem (List.mem_of_getElem? hi))

end Sorted

/-! ### Following a run -/

theorem blockFirstKey_spec (hb : BlockOk sh b) (id : Nat) :
    blockFirstKey (logicalBody sh b) (rstartOf sh b) id = .ok (firstKeyOf b) := by
  obtain ⟨e, -, hhead, hkey⟩ := firstKeyOf_mem hb.ne_nil
  have hget : b[0]? = some e := by rw [← hhead, List.head?_eq_getElem?]
  have h := entryKeyAt_spec hb id hget
  rw [Cursor.offsetOf_zero] at h
  rw [hkey]
  exact h

/-- The first key of a block is its least. -/
theorem firstKey_le (hs : b.Pairwise SstEntry.Before) (hne : b ≠ []) : ∀ x ∈ b, firstKeyOf b ≤ x.key := by
  obtain ⟨e, l, rfl⟩ := List.exists_cons_of_ne_nil hne
  intro x hx
  show e.key ≤ x.key
  rcases List.mem_cons.mp hx with rfl | hx
  · exact le_rfl
  · exact ((List.pairwise_cons.mp hs).1 x hx).key_le

theorem take_succ_flatten {p : Nat} (hp : bs[p]? = some b) : (bs.take (p + 1)).flatten = (bs.take p).flatten ++ b := by
  obtain ⟨hlt, rfl⟩ := List.getElem?_eq_some_iff.mp hp
  rw [List.take_succ_eq_append_getElem hlt, List.flatten_append, List.flatten_singleton]

/-- Before a block that starts above `key`, or that holds no visible version of it next to a block that starts with it, there
is none. -/
theorem newest_take_none (hs : bs.flatten.Pairwise SstEntry.Before) {p : Nat} {b' : List SstEntry} (hp : bs[p]? = some b)
    (hne : b ≠ []) (hnext : bs[p + 1]? = some b') (hfirst : firstKeyOf b' = key) (hne' : b' ≠ [])
    (hnone : newest b key maxSeq = none) : newest (bs.take p).flatten key maxSeq = none := by
  obtain ⟨y', hy', -, hkey'⟩ := firstKeyOf_mem hne'
  refine newest_eq_none fun x hx hxk => ?_
  obtain ⟨y, hy⟩ := List.exists_mem_of_ne_nil b hne
  have hxy := before_of_take hs hp x hx y hy
  have hyy' := (before_of_lt hs (Nat.lt_succ_self p) hp hnext y hy y' hy').key_le
  rw [← hkey', hfirst, ← hxk] at hyy'
  -- The key of `y` lies between that of `x` and the next block's first key.
  have hyk : y.key = key := by
    rw [← hxk]
    exact le_antisymm hyy' hxy.key_le
  have hhidden : maxSeq < y.seq := by
    by_contra hle
    unfold newest at hnone
    rw [List.find?_eq_none] at hnone
    exact hnone y (List.mem_filter.mpr ⟨hy, decide_eq_true (by omega)⟩) (decide_eq_true hyk)
  rcases hxy with hlt | ⟨-, hseq⟩
  · exact absurd hyy' (not_le.mpr hlt)
  · omega

theorem resolveRun_spec {blocks : Nat → Bytes} (h : TableOn sh blocks base k bs rdelBlocks minSeq)
    (hs : bs.flatten.Pairwise SstEntry.Before) (maxSeq : Nat) {p : Nat} (hp : bs[p]? = some b) (hfirst : firstKeyOf b = key)
    (hbest : Located sh base bs o hit) :
    ∃ o' hit', (resolveRun sh base key maxSeq p hit).eval blocks = .ok hit' ∧ Located sh base bs o' hit' ∧
      o' = (newest (bs.take p).flatten key maxSeq).or o := by
  have hids := h.ids
  induction p generalizing b o hit with
  | zero => exact ⟨o, hit, rfl, hbest, rfl⟩
  | succ p ih =>
    have hlt : p < bs.length := by
      have := (List.getElem?_eq_some_iff.mp hp).1
      omega
    have hprev := List.getElem?_eq_getElem hlt
    have hb := h.block bs[p] (List.getElem_mem hlt)
    have hbs := block_before hs hprev
    obtain ⟨o₁, hit₁, hrun, hfound, htop⟩ := searchBlockRev_spec hb (hbs.imp SstEntry.Before.key_le) (some (key, true))
      maxSeq
      (base + p)
    have hnew := newest_of_isTop htop
    rw [resolveRun, if_neg (by omega), Reads.eval_bind, loadBlock_spec h hprev]
    dsimp only [Except.bind]
    rw [Reads.eval_bind, Reads.eval_ofExcept, hrun]
    dsimp only [Except.bind]
    rw [take_succ_flatten hprev, newest_append]
    have hstop : newest bs[p] key maxSeq = none → newest (bs.take p).flatten key maxSeq = none :=
      newest_take_none hs hprev hb.ne_nil hp hfirst (h.block b (List.mem_of_getElem? hp)).ne_nil
    cases o₁ with
    | none =>
      rw [show hit₁ = none from hfound]
      rw [Option.filter_none] at hnew
      refine ⟨o, hit, rfl, hbest, ?_⟩
      rw [hstop hnew, hnew]
      rfl
    | some e =>
      obtain ⟨m, hm, rfl⟩ := hfound
      dsimp only
      rw [stored_key]
      by_cases hkey : e.key = key
      · rw [Option.filter_some, if_pos (decide_eq_true hkey)] at hnew
        have hat : FoundAt sh base bs e ⟨stored e, offsetOf bs[p] m, base + p, rstartOf sh bs[p], p⟩ :=
          ⟨p, bs[p], m, hprev, hm, rfl⟩
        rw [if_pos hkey, Reads.eval_bind, Reads.eval_ofExcept, blockFirstKey_spec hb]
        dsimp only [Except.bind]
        by_cases hon : e.key = firstKeyOf bs[p]
        · rw [if_neg (not_not.mpr hon)]
          obtain ⟨o', hit', hgo, hbest', ho'⟩ := ih hprev (hon.symm.trans hkey) (o := some e) ⟨_, rfl, hat⟩
          refine ⟨o', hit', hgo, hbest', ?_⟩
          rw [ho', hnew]
          cases newest (bs.take p).flatten key maxSeq <;> rfl
        · rw [if_pos hon]
          refine ⟨some e, _, rfl, ⟨_, rfl, hat⟩, ?_⟩
          have hbelow : newest (bs.take p).flatten key maxSeq = none := by
            refine newest_eq_none fun x hx hxk => ?_
            obtain ⟨y, hy, -, hfk⟩ := firstKeyOf_mem hb.ne_nil
            have hxy := (before_of_take hs hprev x hx y hy).key_le
            have hye := firstKey_le hbs hb.ne_nil e (List.mem_of_getElem? hm)
            rw [← hfk, hxk, ← hkey] at hxy
            exact absurd (le_antisymm hxy hye) hon
          rw [hbelow, hnew]
          rfl
      · rw [Option.filter_some, if_neg (by simpa using hkey)] at hnew
        rw [if_neg hkey]
        refine ⟨o, hit, rfl, hbest, ?_⟩
        rw [hstop hnew, hnew]
        rfl

/-- What the head of a candidate becomes: the newest visible version of its key in this block and before. -/
theorem resolve_spec {blocks : Nat → Bytes} (h : TableOn sh blocks base k bs rdelBlocks minSeq)
    (hs : bs.flatten.Pairwise SstEntry.Before) (hat : At sh base bs cur i b) (he : b[m]? = some e)
    (hnew : newest b e.key maxSeq = some e) :
    ∃ e' hit', (resolve sh cur (logicalBody sh b) (stored e) (offsetOf b m) maxSeq).eval blocks = .ok hit' ∧
      FoundAt sh base bs e' hit' ∧ newest (bs.take (i + 1)).flatten e.key maxSeq = some e' := by
  have hb := h.block b (List.mem_of_getElem? hat.block)
  have hhere : FoundAt sh base bs e ⟨stored e, offsetOf b m, base + i, rstartOf sh b, i⟩ := ⟨i, b, m, hat.block, he, rfl⟩
  unfold resolve
  rw [hat.stop_eq, hat.blockId_eq, hat.blockIdx_eq, hat.firstBlock_eq, Reads.eval_bind, Reads.eval_ofExcept,
    blockFirstKey_spec hb, take_succ_flatten hat.block, newest_append, hnew]
  dsimp only [Except.bind]
  rw [stored_key]
  by_cases hrun : i > 0 ∧ e.key = firstKeyOf b
  · rw [if_pos hrun, Reads.eval_bind]
    have hnothing : Located sh base bs none none := rfl
    obtain ⟨o', hit', hgo, hbest, ho'⟩ := resolveRun_spec h hs maxSeq hat.block hrun.2.symm hnothing
    rw [hgo]
    rw [Option.or_none] at ho'
    rw [← ho']
    cases o' with
    | none =>
      rw [show hit' = none from hbest]
      exact ⟨e, _, rfl, hhere, rfl⟩
    | some e' =>
      obtain ⟨x, rfl, hx⟩ := hbest
      exact ⟨e', x, rfl, hx, rfl⟩
  · rw [if_neg hrun]
    refine ⟨e, _, rfl, hhere, ?_⟩
    have hbelow : newest (bs.take i).flatten e.key maxSeq = none := by
      by_cases hi : i = 0
      · rw [hi]
        rfl
      · refine newest_eq_none fun x hx hxk => ?_
        obtain ⟨y, hy, -, hfk⟩ := firstKeyOf_mem hb.ne_nil
        have hxy := (before_of_take hs hat.block x hx y hy).key_le
        have hye := firstKey_le (block_before hs hat.block) hb.ne_nil e (List.mem_of_getElem? he)
        rw [← hfk, hxk] at hxy
        exact absurd ⟨by omega, le_antisymm hxy hye⟩ hrun
    rw [hbelow]
    rfl

/-! ### Parking -/

/-- The origin of a cursor stays. -/
def SameOrigin (cur cur' : RevCursor) : Prop :=
  cur'.tableId = cur.tableId ∧ cur'.nodeId = cur.nodeId ∧ cur'.sealWall = cur.sealWall

theorem SameOrigin.trans {cur₁ cur₂ : RevCursor} (h : SameOrigin cur cur₁) (h' : SameOrigin cur₁ cur₂) :
    SameOrigin cur cur₂ :=
  ⟨h'.1.trans h.1, h'.2.1.trans h.2.1, h'.2.2.trans h.2.2⟩

/-- The head of a table in a backward search: what the scan sees at or above the live bound. -/
abbrev IsTopOf (bs : List (List SstEntry)) (maxSeq : Nat) (floor : Bytes) (bound : Bound) : Option SstEntry → Prop :=
  IsHead (fun a b : Bytes => b ≤ a) SstEntry.key (bs.flatten.filter (passes maxSeq (some floor))) (boundOk bound · = true)

theorem passes_iff {floor : Bytes} : passes maxSeq (some floor) e = true ↔ sees maxSeq e = true ∧ floor ≤ e.key := by
  unfold passes sees
  simp

/-- The greatest key of a table within the bound, from the block it was found in. -/
theorem isTopOf_of_newest {floor : Bytes} {e' : SstEntry} (hfloor : floor ≤ e.key) (hok : boundOk bound e.key = true)
    (hmax : ∀ x ∈ bs.flatten, sees maxSeq x = true → boundOk bound x.key = true → x.key ≤ e.key)
    (hnew : newest bs.flatten e.key maxSeq = some e') : IsTopOf bs maxSeq floor bound (some e') := by
  unfold newest at hnew
  have hkey : e'.key = e.key := of_decide_eq_true (List.find?_eq_some_iff_append.mp hnew).1
  refine ⟨hkey ▸ hok, ?_, ?_⟩
  · rw [← hnew, List.find?_filter, List.find?_filter]
    congr 1
    funext x
    rw [hkey, decide_eq_decide]
    constructor
    · rintro ⟨hp, hx⟩
      exact ⟨(passes_iff.mp hp).1, hx⟩
    · rintro ⟨hp, hx⟩
      exact ⟨passes_iff.mpr ⟨hp, (of_decide_eq_true hx) ▸ hfloor⟩, hx⟩
  · intro x hx hP
    obtain ⟨hmem, hp⟩ := List.mem_filter.mp hx
    rw [hkey]
    exact hmax x hmem (passes_iff.mp hp).1 hP

theorem parkRounds_spec (h : TableOn sh d.blocks base k bs rdelBlocks minSeq) (hs : bs.flatten.Pairwise SstEntry.Before)
    (ht : db.manifest.findTable cur.tableId = some t) (hat : At sh base bs cur i b) (hlive : cur.live = true) {fuel : Nat}
    (hf : i < fuel) (hbeyond : ∀ x ∈ (bs.drop (i + 1)).flatten, sees maxSeq x = true → boundOk bound x.key = false) :
    Reading .device (parkRounds sh db bound maxSeq fuel) (fun out cur' => out = .ok () ∧ SameOrigin cur cur' ∧
      ∃ o, Behind sh base bs cur' o ∧ IsTopOf bs maxSeq t.firstKey bound o) cur d := by
  induction fuel generalizing cur i b d with
  | zero => omega
  | succ fuel ih =>
    have hids := h.ids
    have hlt := (List.getElem?_eq_some_iff.mp hat.block).1
    have hb := h.block b (List.mem_of_getElem? hat.block)
    have hbs := block_before hs hat.block
    have hread : (readDataBlock sh cur.blockId).eval d.blocks = .ok (logicalBody sh b) := by
      rw [hat.blockId_eq]
      exact (h.data i b hat.block).readDataBlock hb
    have hsplit : bs.flatten = (bs.take i).flatten ++ (b ++ (bs.drop (i + 1)).flatten) := by
      have hdrop : bs.drop i = b :: bs.drop (i + 1) := by
        obtain ⟨hlt, rfl⟩ := List.getElem?_eq_some_iff.mp hat.block
        exact List.drop_eq_getElem_cons hlt
      rw [← List.flatten_cons, ← hdrop, ← List.flatten_append, List.take_append_drop]
    obtain ⟨o, hit, hsearch, hfound, htop⟩ := searchBlockRev_spec hb (hbs.imp SstEntry.Before.key_le)
      bound maxSeq cur.blockId
    unfold parkRounds
    refine Reading.get_bind ?_
    rw [if_pos hlive]
    cases o with
    | some e =>
      obtain ⟨m, hm, rfl⟩ := hfound
      have hmax : ∀ x ∈ bs.flatten, sees maxSeq x = true → boundOk bound x.key = true → x.key ≤ e.key := by
        intro x hx hsee hP
        rw [hsplit] at hx
        rcases List.mem_append.mp hx with hx | hx
        · exact (before_of_take hs hat.block x hx e (List.mem_of_getElem? hm)).key_le
        · rcases List.mem_append.mp hx with hx | hx
          · exact htop.2.2 x (List.mem_filter.mpr ⟨hx, hsee⟩) hP
          · rw [hbeyond x hx hsee] at hP
            cases hP
      by_cases hcut : e.key < t.firstKey
      · -- Below the live bound the cursor is done.
        have hround : (parkRound sh db bound maxSeq cur).eval d.blocks = .ok ({ cur with live := false }, false) := by
          unfold parkRound
          rw [Reads.eval_bind, hread]
          dsimp only [Except.bind]
          rw [Reads.eval_bind, Reads.eval_ofExcept, hat.stop_eq, hsearch]
          dsimp only [Except.bind]
          rw [ht, Option.any_some, stored_key, if_pos (decide_eq_true hcut)]
          rfl
        refine Reading.run_bind hround fun d' _ => ?_
        dsimp only
        refine Reading.bind (Reading.set_ok (Q := fun o s => o = .ok () ∧ s = _) _ ⟨rfl, rfl⟩) fun s' d'' _ hs' => ?_
        rw [hs', if_neg Bool.false_ne_true]
        refine Reading.pure_ok _ ⟨rfl, ⟨rfl, rfl, rfl⟩, none, .dead rfl, fun x hx hP => ?_⟩
        obtain ⟨hmem, hp⟩ := List.mem_filter.mp hx
        obtain ⟨hsee, hge⟩ := passes_iff.mp hp
        exact absurd (hge.trans (hmax x hmem hsee hP)) (not_le.mpr hcut)
      · have hnewb : newest b e.key maxSeq = some e := htop.2.1
        obtain ⟨e', hit', hres, hfound', hnew⟩ := resolve_spec h hs hat hm hnewb
        have hround : (parkRound sh db bound maxSeq cur).eval d.blocks = .ok (cur.onHit hit', false) := by
          unfold parkRound
          rw [Reads.eval_bind, hread]
          dsimp only [Except.bind]
          rw [Reads.eval_bind, Reads.eval_ofExcept, hat.stop_eq, hsearch]
          dsimp only [Except.bind]
          rw [ht, Option.any_some, stored_key, if_neg (by simpa using not_lt.mp hcut), Reads.eval_bind, hres]
          rfl
        refine Reading.run_bind hround fun d' _ => ?_
        dsimp only
        refine Reading.bind (Reading.set_ok (Q := fun o s => o = .ok () ∧ s = _) _ ⟨rfl, rfl⟩) fun s' d'' _ hs' => ?_
        rw [hs', if_neg Bool.false_ne_true]
        refine Reading.pure_ok _ ⟨rfl, ⟨rfl, rfl, rfl⟩, some e', .parked rfl hat.firstBlock_eq hfound' rfl, ?_⟩
        refine isTopOf_of_newest (not_lt.mp hcut) htop.1 hmax ?_
        rw [hsplit, ← List.append_assoc, ← take_succ_flatten hat.block, newest_append, hnew, Option.some_or]
    | none =>
      rw [show hit = none from hfound] at hsearch
      have hbeyond' : ∀ x ∈ b ++ (bs.drop (i + 1)).flatten, sees maxSeq x = true → boundOk bound x.key = false := by
        intro x hx hsee
        rcases List.mem_append.mp hx with hx | hx
        · simpa using htop x (List.mem_filter.mpr ⟨hx, hsee⟩)
        · exact hbeyond x hx hsee
      by_cases hi : i = 0
      · have hround : (parkRound sh db bound maxSeq cur).eval d.blocks = .ok ({ cur with live := false }, false) := by
          unfold parkRound
          rw [Reads.eval_bind, hread]
          dsimp only [Except.bind]
          rw [Reads.eval_bind, Reads.eval_ofExcept, hat.stop_eq, hsearch]
          dsimp only [Except.bind]
          rw [if_pos (hat.blockIdx_eq.trans hi)]
          rfl
        refine Reading.run_bind hround fun d' _ => ?_
        dsimp only
        refine Reading.bind (Reading.set_ok (Q := fun o s => o = .ok () ∧ s = _) _ ⟨rfl, rfl⟩) fun s' d'' _ hs' => ?_
        rw [hs', if_neg Bool.false_ne_true]
        refine Reading.pure_ok _ ⟨rfl, ⟨rfl, rfl, rfl⟩, none, .dead rfl, fun x hx hP => ?_⟩
        obtain ⟨hmem, hp⟩ := List.mem_filter.mp hx
        rw [hsplit, hi, List.take_zero, List.flatten_nil, List.nil_append, ← hi] at hmem
        have := hbeyond' x hmem (passes_iff.mp hp).1
        rw [hP] at this
        cases this
      · have hprev := List.getElem?_eq_getElem (by omega : i - 1 < bs.length)
        have hround : (parkRound sh db bound maxSeq cur).eval d.blocks = .ok ({ cur with
            blockId := base + (i - 1)
            blockIdx := i - 1
            stop := rstartOf sh bs[i - 1] }, true) := by
          unfold parkRound
          rw [Reads.eval_bind, hread]
          dsimp only [Except.bind]
          rw [Reads.eval_bind, Reads.eval_ofExcept, hat.stop_eq, hsearch]
          dsimp only [Except.bind]
          rw [hat.blockIdx_eq, hat.firstBlock_eq, if_neg hi, if_neg (by omega), Reads.eval_bind, loadBlock_spec h hprev]
          rfl
        refine Reading.run_bind hround fun d' hd' => ?_
        dsimp only
        refine Reading.bind (Reading.set_ok (Q := fun o s => o = .ok () ∧ s = _) _ ⟨rfl, rfl⟩) fun s' d'' hd'' hs' => ?_
        rw [hs', if_pos rfl]
        have hsame : d''.blocks = d.blocks := hd''.1.trans hd'.1
        have hdrop : (bs.drop (i - 1 + 1)).flatten = b ++ (bs.drop (i + 1)).flatten := by
          obtain ⟨hlt, rfl⟩ := List.getElem?_eq_some_iff.mp hat.block
          rw [show i - 1 + 1 = i by omega, List.drop_eq_getElem_cons hlt, List.flatten_cons]
        have hgo := @ih d'' { cur with
            blockId := base + (i - 1)
            blockIdx := i - 1
            stop := rstartOf sh bs[i - 1] } bs[i - 1] (i - 1) (by rw [hsame]; exact h) ht
          ⟨hat.firstBlock_eq, rfl, rfl, rfl, hprev⟩ hlive (by omega) (by rw [hdrop]; exact hbeyond')
        exact hgo

theorem parkCursor_spec (h : TableOn sh d.blocks base k bs rdelBlocks minSeq) (hs : bs.flatten.Pairwise SstEntry.Before)
    (ht : db.manifest.findTable cur.tableId = some t) (hat : At sh base bs cur i b) (hlive : cur.live = true)
    (hbeyond : ∀ x ∈ (bs.drop (i + 1)).flatten, sees maxSeq x = true → boundOk bound x.key = false) :
    Reading .device (parkCursor sh db bound maxSeq) (fun out cur' => out = .ok () ∧ SameOrigin cur cur' ∧
      ∃ o, Behind sh base bs cur' o ∧ IsTopOf bs maxSeq t.firstKey bound o) cur d := by
  unfold parkCursor
  refine Reading.get_bind ?_
  rw [hat.blockIdx_eq]
  exact parkRounds_spec h hs ht hat hlive (by omega) hbeyond

theorem Behind.place (h : Behind sh base bs cur (some e)) : ∃ (i : Nat) (b : List SstEntry) (m : Nat),
    At sh base bs cur i b ∧ b[m]? = some e ∧ cur.key = e.key ∧ cur.live = true := by
  cases h with
  | parked live first found head =>
    obtain ⟨i, b, m, hi, hm, rfl⟩ := found
    refine ⟨i, b, m, ⟨first, ?_, ?_, ?_, hi⟩, hm, ?_, live⟩
    · exact congrArg RevCursor.blockIdx head
    · exact congrArg RevCursor.blockId head
    · exact congrArg RevCursor.stop head
    · exact congrArg RevCursor.key head

/-- A step past `key`: a cursor on the key moves to the head below it, any other stays. -/
theorem passKey_spec (h : TableOn sh d.blocks base k bs rdelBlocks minSeq) (hs : bs.flatten.Pairwise SstEntry.Before)
    (ht : db.manifest.findTable cur.tableId = some t) (hc : Behind sh base bs cur o) :
    Reading .device (passKey sh db maxSeq key) (fun out cur' => out = .ok () ∧ SameOrigin cur cur' ∧
      ∃ o', Behind sh base bs cur' o' ∧ (o.all (fun e => decide (e.key ≠ key)) = true ∧ o' = o ∨
        o.any (fun e => decide (e.key = key)) = true ∧ IsTopOf bs maxSeq t.firstKey (some (key, false)) o')) cur d := by
  have hrest : ∀ {cur : RevCursor} {o : Option SstEntry} {d : Device} (fuel : Nat), Behind sh base bs cur o →
      o.all (fun e => decide (e.key ≠ key)) = true →
      Reading .device (passRounds sh db maxSeq key fuel) (fun out cur' => out = .ok () ∧ cur' = cur) cur d := by
    intro cur o d fuel hc hall
    cases fuel with
    | zero => exact Reading.pure_ok _ ⟨rfl, rfl⟩
    | succ fuel =>
      unfold passRounds
      refine Reading.get_bind ?_
      have hoff : (cur.live && cur.key = key) = false := by
        cases o with
        | none =>
          cases hc with
          | dead hdead => rw [hdead, Bool.false_and]
        | some e =>
          obtain ⟨-, -, -, -, -, hkey, -⟩ := hc.place
          have hne : e.key ≠ key := of_decide_eq_true hall
          rw [hkey]
          simp [hne]
      rw [hoff, if_neg Bool.false_ne_true]
      exact Reading.pure_ok _ ⟨rfl, rfl⟩
  unfold passKey
  refine Reading.get_bind ?_
  cases hon : o.any fun e => decide (e.key = key) with
  | false =>
    have hall : o.all (fun e => decide (e.key ≠ key)) = true := by
      cases o with
      | none => rfl
      | some e => simpa using hon
    refine (hrest _ hc hall).mono fun out cur' hp => ⟨hp.1, ?_, o, ?_, Or.inl ⟨hall, rfl⟩⟩
    · rw [hp.2]
      exact ⟨rfl, rfl, rfl⟩
    · rw [hp.2]
      exact hc
  | true =>
    cases o with
    | none => cases hon
    | some e =>
      have hek : e.key = key := of_decide_eq_true hon
      obtain ⟨i, b, m, hat, hm, hkey, hlive⟩ := hc.place
      unfold passRounds
      refine Reading.get_bind ?_
      rw [hlive, hkey, hek, Bool.true_and, if_pos (decide_eq_true rfl)]
      have hbeyond : ∀ x ∈ (bs.drop (i + 1)).flatten, sees maxSeq x = true → boundOk (some (key, false)) x.key = false := by
        intro x hx _
        obtain ⟨b', hb', hx⟩ := List.mem_flatten.mp hx
        obtain ⟨j, hj⟩ := List.getElem?_of_mem hb'
        rw [List.getElem?_drop] at hj
        have hle := (before_of_lt hs (by omega : i < i + 1 + j) hat.block hj e (List.mem_of_getElem? hm) x hx).key_le
        unfold boundOk
        rw [hek] at hle
        simp [not_lt.mpr hle]
      refine Reading.bind (parkCursor_spec h hs ht hat hlive hbeyond) fun cur₁ d₁ hd₁ hpark => ?_
      obtain ⟨hsame, o', hbehind, htop⟩ := hpark
      have hall : o'.all (fun e => decide (e.key ≠ key)) = true := by
        cases o' with
        | none => rfl
        | some e' =>
          have := htop.1
          unfold boundOk at this
          simp only [Bool.false_and, Bool.or_false, decide_eq_true_eq] at this
          exact decide_eq_true (ne_of_lt this)
      refine (hrest _ hbehind hall).mono fun out cur' hp => ⟨hp.1, ?_, o', ?_, Or.inr ⟨rfl, htop⟩⟩
      · rw [hp.2]
        exact hsame
      · rw [hp.2]
        exact hbehind

/-! ### Seeking -/

/-- The bound of a seek: the ceiling, which qualifies itself; an empty one leaves the search unbounded. -/
def ceiling (start : Bytes) : Bound := if start.isEmpty then none else some (start, true)

/-- A fresh cursor stands in the last block that can hold an entry within the ceiling. -/
theorem init_spec {blocks : Nat → Bytes} (h : TableOn sh blocks base k bs rdelBlocks minSeq)
    (hs : bs.flatten.Pairwise SstEntry.Before) {tref : TableRef} (ht : Cursor.PointsTo tref base bs rdelBlocks)
      (start : Bytes) :
    (∀ x ∈ bs.flatten, boundOk (ceiling start) x.key = false) ∧ (init sh tref start).eval blocks = .ok none ∨
      ∃ cur i b, (init sh tref start).eval blocks = .ok (some cur) ∧ cur.live = true ∧ cur.tableId = tref.id ∧
        cur.nodeId = tref.nodeId ∧ cur.sealWall = tref.sealWall ∧ At sh base bs cur i b ∧
        (∃ x ∈ b, boundOk (ceiling start) x.key = true) ∧
        ∀ x ∈ (bs.drop (i + 1)).flatten, boundOk (ceiling start) x.key = false := by
  have hids := h.ids
  have hfirst : tref.dataFirst = base := ht.firstBlock_eq
  obtain ⟨hcount, hfooter⟩ := blocks_of_pointsTo ht
  unfold init
  rw [hcount, hfooter, hfirst]
  dsimp only
  by_cases hzero : bs.length = 0
  · rw [if_pos hzero, List.length_eq_zero_iff.mp hzero]
    exact Or.inl ⟨by simp, rfl⟩
  rw [if_neg hzero]
  have hmake : ∀ {i : Nat} (hi : i < bs.length),
      (startBlock sh tref (base + bs.length + rdelBlocks + 2) bs.length start).eval blocks = .ok (some i) →
      (∃ x ∈ bs[i], boundOk (ceiling start) x.key = true) →
      (∀ x ∈ (bs.drop (i + 1)).flatten, boundOk (ceiling start) x.key = false) → ∃ cur i b, Reads.eval blocks (do
          match ← startBlock sh tref (base + bs.length + rdelBlocks + 2) bs.length start with
          | none => return none
          | some blockIdx =>
            if blockIdx ≥ bs.length then .fail (.corruptBlock tref.firstBlock)
            else if base + blockIdx > U64_MAX then .fail (.corruptBlock tref.firstBlock)
            else do
              let (_, stop) ← loadBlock sh (base + blockIdx)
              return some (⟨tref.id, tref.nodeId, tref.sealWall, base, blockIdx, base + blockIdx, 0, stop, true, [], 0,
                false, 0, 0⟩ : RevCursor)) = .ok (some cur) ∧ cur.live = true ∧ cur.tableId = tref.id ∧ cur.nodeId = tref.nodeId ∧
        cur.sealWall = tref.sealWall ∧ At sh base bs cur i b ∧ (∃ x ∈ b, boundOk (ceiling start) x.key = true) ∧
        ∀ x ∈ (bs.drop (i + 1)).flatten, boundOk (ceiling start) x.key = false := by
    intro i hi hstart hin hout
    have hget := List.getElem?_eq_getElem hi
    rw [Reads.eval_bind, hstart]
    dsimp only [Except.bind]
    rw [if_neg (by omega), if_neg (by omega), Reads.eval_bind, loadBlock_spec h hget]
    exact ⟨_, i, bs[i], rfl, rfl, rfl, rfl, rfl, ⟨rfl, rfl, rfl, rfl, hget⟩, hin, hout⟩
  have hmem : ∀ {i : Nat} (hi : i < bs.length), ∃ x ∈ bs[i], firstKeyOf bs[i] = x.key := by
    intro i hi
    obtain ⟨x, hx, -, hkey⟩ := firstKeyOf_mem (h.block bs[i] (List.getElem_mem hi)).ne_nil
    exact ⟨x, hx, hkey⟩
  by_cases hempty : start.isEmpty = true
  · right
    have hceil : ceiling start = none := if_pos hempty
    have hlast : bs.length - 1 < bs.length := by omega
    refine hmake hlast ?_ ?_ ?_
    · unfold startBlock
      rw [Reads.eval_bind, readIndex_spec h]
      dsimp only [Except.bind]
      rw [if_pos hempty]
      rfl
    · obtain ⟨x, hx, -⟩ := hmem hlast
      refine ⟨x, hx, ?_⟩
      rw [hceil]
      rfl
    · rw [List.drop_of_length_le (by omega)]
      simp
  · have hceil : ceiling start = some (start, true) := if_neg hempty
    have hidx : Indexed sh base bs := ⟨h.block, hs.imp SstEntry.Before.key_le, by omega, h.fits⟩
    obtain ⟨m, hm, hsplit, hupper⟩ := hidx.upperBound start (base + bs.length + rdelBlocks + 1)
    have hstart : ∀ {o : Option Nat}, indexLastLeBlock (indexPayload sh base bs) start (base + bs.length + rdelBlocks + 1) =
        .ok o → (startBlock sh tref (base + bs.length + rdelBlocks + 2) bs.length start).eval blocks =
          match o with
          | some id => if id < base then .error (.corruptBlock id) else .ok (some (id - base))
          | none => .ok none := by
      intro o ho
      unfold startBlock
      rw [Reads.eval_bind, readIndex_spec h]
      dsimp only [Except.bind]
      rw [if_neg hempty, Reads.eval_bind, Reads.eval_ofExcept, ho, hfirst]
      cases o with
      | none => rfl
      | some id =>
        dsimp only [Except.bind]
        split <;> rfl
    have hover : ∀ i b, bs[i]? = some b → m ≤ i → ∀ x ∈ b, boundOk (ceiling start) x.key = false := by
      intro i b hi hmi x hx
      have hle := hidx.firstKey_le (List.mem_of_getElem? hi) x hx
      have hlt : start < firstKeyOf b := not_le.mp fun hle => absurd ((hsplit i b hi).mp hle) (by omega)
      rw [hceil]
      unfold boundOk
      have habove := lt_of_lt_of_le hlt hle
      simp [not_lt.mpr habove.le, ne_of_gt habove]
    by_cases hm0 : m = 0
    · left
      rw [if_pos hm0] at hupper
      have hnone := hstart (o := none) (by unfold indexLastLeBlock; rw [hupper]; rfl)
      refine ⟨fun x hx => ?_, ?_⟩
      · obtain ⟨b, hb, hx⟩ := List.mem_flatten.mp hx
        obtain ⟨i, hi⟩ := List.getElem?_of_mem hb
        exact hover i b hi (by omega) x hx
      · rw [Reads.eval_bind, hnone]
        rfl
    · right
      rw [if_neg hm0] at hupper
      have hlt : m - 1 < bs.length := by omega
      obtain ⟨next, hentry⟩ := hidx.entryAt (List.getElem?_eq_getElem hlt)
      have hsome := hstart (o := some (base + (m - 1))) (by
        unfold indexLastLeBlock
        rw [hupper]
        show (orCorrupt _ (indexEntryAt _ (m - 1)) >>= _) = _
        rw [hentry]
        rfl)
      refine hmake hlt ?_ ?_ ?_
      · rw [hsome]
        dsimp only
        rw [if_neg (by omega), show base + (m - 1) - base = m - 1 by omega]
      · obtain ⟨x, hx, hkey⟩ := hmem hlt
        refine ⟨x, hx, ?_⟩
        have hle := (hsplit (m - 1) _ (List.getElem?_eq_getElem hlt)).mpr (by omega)
        rw [hceil]
        unfold boundOk
        rw [← hkey]
        rcases lt_or_eq_of_le hle with h | h
        · simp [h]
        · simp [h]
      · intro x hx
        obtain ⟨b, hb, hx⟩ := List.mem_flatten.mp hx
        obtain ⟨j, hj⟩ := List.getElem?_of_mem hb
        rw [List.getElem?_drop] at hj
        exact hover _ b hj (by omega) x hx

end RevCursor

end Horton
