import Horton.Scan.Blocks
import Horton.Scan.Parked
import Horton.Lib.Reading

/-!
# The cursors of a scan

The table cursor of `Scan`: it starts at the data block that the index names for the seek bound, and `parkCursor` moves it to
the next visible entry, over the ends of blocks.  Its head is `IsHead` of the visible entries of the table
(`Follows.parked`), and stepping past a key moves it to the head behind the key (`passKey_spec`).
-/

namespace Horton

open BlockDev Sstable

/-- The position of one table in a scan, with the head entry: its value stays in the block. -/
structure ScanCursor where
  nodeId : Nat
  sealWall : Nat
  firstBlock : Nat
  dataBlocks : Nat
  blockIdx : Nat
  blockId : Nat
  off : Nat
  next : Nat
  stop : Nat
  live : Bool
  key : Bytes
  seq : Nat
  tombstone : Bool
  valLen : Nat
  expireAt : Nat
  deriving DecidableEq, Repr

namespace Scans

variable (sh : Shape)

/-- The first entry from `off` on that passes, with its offset and the next one. -/
def nextVisible (body : Bytes) (stop id maxSeq : Nat) (floor : Option Bytes) :
    Nat → Nat → Except Error (Option (SstEntry × Nat × Nat))
  | 0, _ => .ok none
  | fuel + 1, off =>
    match parseDataEntry body off stop id with
    | .error _ =>
      if Bytes.allZero ((body.drop off).take (stop - off)) then .ok none else .error (.corruptBlock id)
    | .ok (entry, next) =>
      if passes maxSeq floor entry then .ok (some (entry, off, next))
      else nextVisible body stop id maxSeq floor fuel next

end Scans

namespace ScanCursor

open Scans

variable (sh : Shape)

/-- Parked on an entry of the current block. -/
def onEntry (cur : ScanCursor) (e : SstEntry) (off next : Nat) : ScanCursor :=
  { cur with
    key := e.key
    seq := e.seq
    tombstone := e.tombstone
    valLen := e.val.length
    expireAt := e.expireAt
    off := off
    next := next
    live := true }

/-- One round of `park_cursor`: the rest of the current block, or the step to the next one; the flag asks for another round.
A block holds fewer than `BLOCK` entries. -/
def parkRound (maxSeq : Nat) (floor : Option Bytes) (cur : ScanCursor) : Reads Error (ScanCursor × Bool) := do
  let body ← readDataBlock sh cur.blockId
  match ← Reads.ofExcept (nextVisible body cur.stop cur.blockId maxSeq floor sh.BLOCK cur.next) with
  | some (entry, off, next) => return (cur.onEntry entry off next, false)
  | none =>
    if cur.blockIdx + 1 ≥ cur.dataBlocks then return ({ cur with live := false }, false)
    else if cur.firstBlock + (cur.blockIdx + 1) > U64_MAX then .fail (.corruptBlock cur.firstBlock)
    else do
      let (_, stop) ← loadBlock sh (cur.firstBlock + (cur.blockIdx + 1))
      return ({ cur with
        blockId := cur.firstBlock + (cur.blockIdx + 1)
        blockIdx := cur.blockIdx + 1
        stop := stop
        next := 0 }, true)

/-- The rounds of `park_cursor`; each block but the first comes with one. -/
def parkRounds (maxSeq : Nat) (floor : Option Bytes) : Nat → Prog ScanCursor Error Unit
  | 0 => pure ()
  | fuel + 1 => do
    let cur ← Prog.get
    if cur.live then do
      let (cur', more) ← (parkRound sh maxSeq floor cur).run .device
      Prog.set cur'
      if more then parkRounds maxSeq floor fuel else pure ()
    else pure ()

def parkCursor (maxSeq : Nat) (floor : Option Bytes) : Prog ScanCursor Error Unit := do
  let cur ← Prog.get
  parkRounds sh maxSeq floor (cur.dataBlocks + 1)

/-- Moves on while the head sits on `key`; the versions of a key are among the entries of the table. -/
def passRounds (maxSeq : Nat) (key : Bytes) : Nat → Prog ScanCursor Error Unit
  | 0 => pure ()
  | fuel + 1 => do
    let cur ← Prog.get
    if cur.live && cur.key = key then do
      parkCursor sh maxSeq none
      passRounds maxSeq key fuel
    else pure ()

def passKey (maxSeq : Nat) (key : Bytes) : Prog ScanCursor Error Unit := do
  let cur ← Prog.get
  passRounds sh maxSeq key (cur.dataBlocks * sh.BLOCK + 1)

/-- The data block that the index names for `start`, counted from the first. -/
def startBlock (tref : TableRef) (footer : Nat) (start : Bytes) : Reads Error Nat := do
  let (payload, indexId) ← readIndex sh footer
  match ← Reads.ofExcept (indexLookup payload start indexId) with
  | some (id, _) => if id < tref.dataFirst then .fail (.corruptBlock id) else return id - tref.dataFirst
  | none => return 0

/-- A cursor over `tref` in front of the first entry of its start block; `none` for a table without data blocks. -/
def init (tref : TableRef) (start : Bytes) : Reads Error (Option ScanCursor) :=
  match tref.dataBlocks with
  | none => .fail (.corruptBlock tref.firstBlock)
  | some dataBlocks =>
    if dataBlocks = 0 then pure none
    else match tref.footerBlock with
      | none => .fail .corruptManifest
      | some footer => do
        let blockIdx ← startBlock sh tref footer start
        if blockIdx ≥ dataBlocks then .fail (.corruptBlock tref.firstBlock)
        else if tref.dataFirst + blockIdx > U64_MAX then .fail (.corruptBlock tref.firstBlock)
        else do
          let (_, stop) ← loadBlock sh (tref.dataFirst + blockIdx)
          return some ⟨tref.nodeId, tref.sealWall, tref.dataFirst, dataBlocks, blockIdx, tref.dataFirst + blockIdx, 0, 0,
            stop, true, [], 0, false, 0, 0⟩

/-- The head of a live cursor. -/
def head (cur : ScanCursor) : Option Scans.Head :=
  if cur.live then
    some ⟨cur.key, .table cur.nodeId cur.sealWall cur.seq, cur.tombstone, cur.valLen, cur.expireAt,
      .block cur.blockId cur.off cur.stop⟩
  else none

end ScanCursor

namespace Scans

variable {sh : Shape} {blocks : Nat → Bytes} {base k : Nat} {bs : List (List SstEntry)} {rdelBlocks minSeq maxSeq : Nat}
  {b : List SstEntry} {floor : Option Bytes}

theorem passes_stored (e : SstEntry) : passes maxSeq floor (stored e) = passes maxSeq floor e := rfl

/-- The search in a block, from entry `j` on. -/
theorem nextVisible_spec (hb : BlockOk sh b) (id : Nat) {j n fuel : Nat} (hn : b.length = j + n) (hf : n < fuel) :
    (∃ m e, j ≤ m ∧ b[m]? = some e ∧ passes maxSeq floor e = true ∧
      (∀ x ∈ (b.drop j).take (m - j), passes maxSeq floor x = false) ∧
      nextVisible (logicalBody sh b) (rstartOf sh b) id maxSeq floor fuel (offsetOf b j) =
        .ok (some (stored e, offsetOf b m, offsetOf b (m + 1)))) ∨
    (∀ x ∈ b.drop j, passes maxSeq floor x = false) ∧
      nextVisible (logicalBody sh b) (rstartOf sh b) id maxSeq floor fuel (offsetOf b j) = .ok none := by
  induction n generalizing j fuel with
  | zero =>
    obtain ⟨fuel, rfl⟩ : ∃ f, fuel = f + 1 := ⟨fuel - 1, by omega⟩
    right
    have hend : offsetOf b j = (encodeEntries b).length := by
      rw [← offsetOf_length]
      congr 1
      omega
    constructor
    · rw [List.drop_of_length_le (by omega)]
      simp
    · rw [nextVisible, hend, parseDataEntry_end hb]
      dsimp only
      rw [if_pos hb.entries.padding]
  | succ n ih =>
    obtain ⟨fuel, rfl⟩ : ∃ f, fuel = f + 1 := ⟨fuel - 1, by omega⟩
    obtain ⟨e, hj⟩ : ∃ e, b[j]? = some e := ⟨_, List.getElem?_eq_getElem (by omega)⟩
    rw [nextVisible, parseDataEntry_spec hb hj]
    dsimp only
    rw [passes_stored]
    cases hp : passes maxSeq floor e with
    | true =>
      left
      refine ⟨j, e, le_rfl, hj, hp, ?_, if_pos rfl⟩
      rw [Nat.sub_self, List.take_zero]
      simp
    | false =>
      rw [if_neg Bool.false_ne_true]
      rcases ih (by omega : b.length = j + 1 + n) (by omega : n < fuel) with ⟨m, e', hm, he', hp', hskip, hrun⟩ |
        ⟨hskip, hrun⟩
      · refine Or.inl ⟨m, e', by omega, he', hp', ?_, hrun⟩
        rw [drop_eq_cons hj, show m - j = (m - (j + 1)) + 1 by omega, List.take_succ_cons]
        intro x hx
        rcases List.mem_cons.mp hx with rfl | hx
        · exact hp
        · exact hskip x hx
      · refine Or.inr ⟨?_, hrun⟩
        rw [drop_eq_cons hj]
        intro x hx
        rcases List.mem_cons.mp hx with rfl | hx
        · exact hp
        · exact hskip x hx

end Scans

namespace ScanCursor

open Scans

variable {sh : Shape} {d : Device} {base k : Nat} {bs : List (List SstEntry)} {rdelBlocks minSeq maxSeq : Nat}
  {cur : ScanCursor} {b l : List SstEntry} {floor : Option Bytes} {i j m : Nat} {e : SstEntry} {key : Bytes}

/-! ### Where a cursor stands -/

/-- The next entry to parse is entry `j` of data block `i`. -/
structure At (sh : Shape) (base : Nat) (bs : List (List SstEntry)) (cur : ScanCursor) (i : Nat) (b : List SstEntry)
    (j : Nat) : Prop where
  firstBlock_eq : cur.firstBlock = base
  dataBlocks_eq : cur.dataBlocks = bs.length
  blockIdx_eq : cur.blockIdx = i
  blockId_eq : cur.blockId = base + i
  stop_eq : cur.stop = rstartOf sh b
  next_eq : cur.next = offsetOf b j
  block : bs[i]? = some b
  le : j ≤ b.length

/-- The entries from entry `j` of data block `i` on. -/
def left (bs : List (List SstEntry)) (i : Nat) (b : List SstEntry) (j : Nat) : List SstEntry :=
  b.drop j ++ (bs.drop (i + 1)).flatten

/-- The cursor has the entries `l` before it, and is parked on the first of them. -/
inductive Ahead (sh : Shape) (base : Nat) (bs : List (List SstEntry)) (cur : ScanCursor) : List SstEntry → Prop
  | dead (h : cur.live = false) : Ahead sh base bs cur []
  | parked {i : Nat} {b : List SstEntry} {m : Nat} {e : SstEntry} (live : cur.live = true)
    (at_ : At sh base bs cur i b (m + 1)) (entry : b[m]? = some e)
      (head : cur = cur.onEntry (stored e) (offsetOf b m) (offsetOf b (m + 1))) :
      Ahead sh base bs cur (e :: left bs i b (m + 1))

/-- The origin of a cursor stays. -/
def SameOrigin (cur cur' : ScanCursor) : Prop := cur'.nodeId = cur.nodeId ∧ cur'.sealWall = cur.sealWall

theorem SameOrigin.trans {cur₁ cur₂ : ScanCursor} (h : SameOrigin cur cur₁) (h' : SameOrigin cur₁ cur₂) :
    SameOrigin cur cur₂ :=
  ⟨h'.1.trans h.1, h'.2.trans h.2⟩

theorem left_suffix (hi : bs[i]? = some b) (j : Nat) : left bs i b j <:+ bs.flatten := by
  have hsplit : bs = bs.take i ++ b :: bs.drop (i + 1) := by
    obtain ⟨hlt, rfl⟩ := List.getElem?_eq_some_iff.mp hi
    rw [← List.drop_eq_getElem_cons hlt, List.take_append_drop]
  refine ⟨(bs.take i).flatten ++ b.take j, ?_⟩
  conv_rhs => rw [hsplit, List.flatten_append, List.flatten_cons]
  unfold left
  rw [List.append_assoc, ← List.append_assoc (b.take j), List.take_append_drop]

theorem Ahead.suffix (h : Ahead sh base bs cur l) : l <:+ bs.flatten := by
  cases h with
  | dead => exact List.nil_suffix
  | @parked i b m e live hat he =>
    have hdrop : e :: left bs i b (m + 1) = left bs i b m := by
      unfold left
      rw [drop_eq_cons he, List.cons_append]
    rw [hdrop]
    exact left_suffix hat.block m

/-- The rest of a block that has nothing to show is passed over. -/
private theorem left_next (hskip : ∀ x ∈ b.drop j, passes maxSeq floor x = false) :
    (left bs i b j).dropWhile (fun x => !passes maxSeq floor x) =
      ((bs.drop (i + 1)).flatten).dropWhile fun x => !passes maxSeq floor x := by
  unfold left
  rw [List.dropWhile_append_of_pos]
  intro x hx
  simp [hskip x hx]

theorem parkRounds_spec (h : TableOn sh d.blocks base k bs rdelBlocks minSeq) {fuel : Nat} (hat : At sh base bs cur i b j)
    (hlive : cur.live = true) (hf : bs.length < i + fuel + 1) :
    Reading .device (parkRounds sh maxSeq floor fuel) (fun o cur' => o = .ok () ∧ SameOrigin cur cur' ∧
      Ahead sh base bs cur' ((left bs i b j).dropWhile fun x => !passes maxSeq floor x)) cur d := by
  induction fuel generalizing cur i b j d with
  | zero =>
    have hlt := (List.getElem?_eq_some_iff.mp hat.block).1
    omega
  | succ fuel ih =>
    have hlt := (List.getElem?_eq_some_iff.mp hat.block).1
    have hb := h.block b (List.mem_of_getElem? hat.block)
    have hids := h.ids
    have hroom := hb.room
    have hlen := length_le_encodeEntries b
    have hle := hat.le
    have hread : (readDataBlock sh cur.blockId).eval d.blocks = .ok (logicalBody sh b) := by
      rw [hat.blockId_eq]
      exact (h.data i b hat.block).readDataBlock hb
    unfold parkRounds
    refine Reading.get_bind ?_
    rw [if_pos hlive]
    have hsearch := @nextVisible_spec sh maxSeq b floor hb cur.blockId j (b.length - j) sh.BLOCK (by omega) (by omega)
    rcases hsearch with ⟨m, e, hjm, he, hp, hskip, hrun⟩ | ⟨hskip, hrun⟩
    · -- Parked in this block.
      have hround : (parkRound sh maxSeq floor cur).eval d.blocks =
          .ok (cur.onEntry (stored e) (offsetOf b m) (offsetOf b (m + 1)), false) := by
        unfold parkRound
        rw [Reads.eval_bind, hread, Except.bind, Reads.eval_bind, Reads.eval_ofExcept, hat.stop_eq, hat.next_eq, hrun]
        rfl
      refine Reading.run_bind hround fun d' _ => ?_
      dsimp only
      refine Reading.bind (Reading.set_ok (Q := fun o s => o = .ok () ∧ s = _) _ ⟨rfl, rfl⟩) fun s' d'' _ hs => ?_
      rw [hs, if_neg Bool.false_ne_true]
      refine Reading.pure_ok _ ⟨rfl, ⟨rfl, rfl⟩, ?_⟩
      have hm := (List.getElem?_eq_some_iff.mp he).1
      have hsplit : left bs i b j = (b.drop j).take (m - j) ++ (e :: left bs i b (m + 1)) := by
        have hdrop : b.drop m = (b.drop j).drop (m - j) := by
          rw [List.drop_drop]
          congr 1
          omega
        unfold left
        rw [← List.cons_append, ← drop_eq_cons he, hdrop, ← List.append_assoc, List.take_append_drop]
      rw [hsplit, List.dropWhile_append_of_pos (by intro x hx; simp [hskip x hx]), List.dropWhile_cons_of_neg (by simp [hp])]
      exact .parked rfl
        ⟨hat.firstBlock_eq, hat.dataBlocks_eq, hat.blockIdx_eq, hat.blockId_eq, hat.stop_eq, rfl, hat.block, hm⟩ he rfl
    · by_cases hmore : i + 1 < bs.length
      · -- On with the next block.
        have hnext := List.getElem?_eq_getElem hmore
        have hround : (parkRound sh maxSeq floor cur).eval d.blocks =
            .ok ({ cur with
              blockId := base + (i + 1)
              blockIdx := i + 1
              stop := rstartOf sh bs[i + 1]
              next := 0 }, true) := by
          unfold parkRound
          rw [Reads.eval_bind, hread, Except.bind, Reads.eval_bind, Reads.eval_ofExcept, hat.stop_eq, hat.next_eq, hrun,
            Except.bind, hat.blockIdx_eq, hat.dataBlocks_eq, hat.firstBlock_eq]
          dsimp only
          rw [if_neg (by omega), if_neg (by omega), Reads.eval_bind, loadBlock_spec h hnext]
          rfl
        refine Reading.run_bind hround fun d' hd' => ?_
        dsimp only
        refine Reading.bind (Reading.set_ok (Q := fun o s => o = .ok () ∧ s = _) _ ⟨rfl, rfl⟩) fun s' d'' hd'' hs => ?_
        rw [hs, if_pos rfl]
        have hsame : d''.blocks = d.blocks := hd''.1.trans hd'.1
        have hgo := @ih d'' { cur with
            blockId := base + (i + 1)
            blockIdx := i + 1
            stop := rstartOf sh bs[i + 1]
            next := 0 } (bs[i + 1]) (i + 1) 0 (by rw [hsame]; exact h)
          ⟨hat.firstBlock_eq, hat.dataBlocks_eq, rfl, rfl, rfl, (Cursor.offsetOf_zero _).symm, hnext, Nat.zero_le _⟩ hlive
          (by omega)
        refine hgo.mono fun o cur' hp => ⟨hp.1, hp.2.1, ?_⟩
        have hleft : left bs (i + 1) bs[i + 1] 0 = (bs.drop (i + 1)).flatten := by
          unfold left
          rw [List.drop_zero, List.drop_eq_getElem_cons hmore, List.flatten_cons]
        rw [left_next hskip, ← hleft]
        exact hp.2.2
      · -- The last block is exhausted.
        have hround : (parkRound sh maxSeq floor cur).eval d.blocks = .ok ({ cur with live := false }, false) := by
          unfold parkRound
          rw [Reads.eval_bind, hread, Except.bind, Reads.eval_bind, Reads.eval_ofExcept, hat.stop_eq, hat.next_eq, hrun,
            Except.bind, hat.blockIdx_eq, hat.dataBlocks_eq]
          dsimp only
          rw [if_pos (by omega)]
          rfl
        refine Reading.run_bind hround fun d' _ => ?_
        dsimp only
        refine Reading.bind (Reading.set_ok (Q := fun o s => o = .ok () ∧ s = _) _ ⟨rfl, rfl⟩) fun s' d'' _ hs => ?_
        rw [hs, if_neg Bool.false_ne_true]
        refine Reading.pure_ok _ ⟨rfl, ⟨rfl, rfl⟩, ?_⟩
        rw [left_next hskip, List.drop_of_length_le (by omega)]
        exact .dead rfl

theorem parkCursor_spec (h : TableOn sh d.blocks base k bs rdelBlocks minSeq) (hat : At sh base bs cur i b j)
    (hlive : cur.live = true) : Reading .device (parkCursor sh maxSeq floor)
      (fun o cur' => o = .ok () ∧ SameOrigin cur cur' ∧
      Ahead sh base bs cur' ((left bs i b j).dropWhile fun x => !passes maxSeq floor x)) cur d := by
  unfold parkCursor
  refine Reading.get_bind ?_
  rw [hat.dataBlocks_eq]
  exact parkRounds_spec h hat hlive (by omega)

private theorem dropWhile_dropWhile {α : Type} {p q : α → Bool} (hpq : ∀ x, p x = true → q x = true) (l : List α) :
    (l.dropWhile p).dropWhile q = l.dropWhile q := by
  induction l with
  | nil => rfl
  | cons x l ih =>
    cases hp : p x with
    | true => rw [List.dropWhile_cons_of_pos hp, List.dropWhile_cons_of_pos (hpq x hp), ih]
    | false => rw [List.dropWhile_cons_of_neg (by simp [hp])]

/-- An entry that a scan stepping past `key` leaves behind. -/
def passed (maxSeq : Nat) (key : Bytes) (e : SstEntry) : Bool := decide (e.key = key) || !passes maxSeq none e

theorem passRounds_spec (h : TableOn sh d.blocks base k bs rdelBlocks minSeq) (hl : Ahead sh base bs cur l)
    (hv : ∀ e ∈ l.head?, passes maxSeq none e = true) {fuel : Nat} (hf : l.length < fuel) :
    Reading .device (passRounds sh maxSeq key fuel) (fun o cur' => o = .ok () ∧ SameOrigin cur cur' ∧
      Ahead sh base bs cur' (l.dropWhile (passed maxSeq key))) cur d := by
  induction fuel generalizing cur l d with
  | zero => omega
  | succ fuel ih =>
    unfold passRounds
    refine Reading.get_bind ?_
    cases hl with
    | dead hdead =>
      rw [hdead, Bool.false_and, if_neg Bool.false_ne_true]
      exact Reading.pure_ok _ ⟨rfl, ⟨rfl, rfl⟩, .dead hdead⟩
    | @parked i b m e live hat he hhead =>
      have hkey : cur.key = e.key := by
        rw [hhead]
        rfl
      have hvis : passes maxSeq none e = true := hv e rfl
      by_cases heq : e.key = key
      · rw [live, hkey, Bool.true_and, if_pos (decide_eq_true heq),
          List.dropWhile_cons_of_pos (by unfold passed; simp [heq])]
        refine Reading.bind (parkCursor_spec h hat live) fun cur₁ d₁ hd₁ hcur => ?_
        obtain ⟨hsame, hahead⟩ := hcur
        have hdrop := dropWhile_dropWhile (p := fun x => !passes maxSeq none x) (q := passed maxSeq key)
          (fun x hx => by unfold passed; simp [hx]) (left bs i b (m + 1))
        have hshort := (List.dropWhile_sublist (l := left bs i b (m + 1)) fun x => !passes maxSeq none x).length_le
        rw [List.length_cons] at hf
        have hgo := @ih d₁ cur₁ _ (by rw [hd₁.1]; exact h) hahead ?_ (by omega)
        · rw [hdrop] at hgo
          exact hgo.mono fun o cur' hp => ⟨hp.1, hsame.trans hp.2.1, hp.2.2⟩
        · intro x hx
          have := List.head?_dropWhile_not (fun x => !passes maxSeq none x) (left bs i b (m + 1))
          rw [hx] at this
          simpa using this
      · rw [live, hkey, Bool.true_and, if_neg (by simpa using heq),
          List.dropWhile_cons_of_neg (by unfold passed; simp [heq, hvis])]
        exact Reading.pure_ok _ ⟨rfl, ⟨rfl, rfl⟩, .parked live hat he hhead⟩

theorem passKey_spec (h : TableOn sh d.blocks base k bs rdelBlocks minSeq) (hl : Ahead sh base bs cur l)
    (hv : ∀ e ∈ l.head?, passes maxSeq none e = true) : Reading .device (passKey sh maxSeq key)
      (fun o cur' => o = .ok () ∧ SameOrigin cur cur' ∧ Ahead sh base bs cur' (l.dropWhile (passed maxSeq key))) cur d := by
  unfold passKey
  refine Reading.get_bind ?_
  cases hl with
  | dead hdead => exact passRounds_spec h (.dead hdead) hv (by simp)
  | parked live hat he hhead =>
    have hlen := (Ahead.parked live hat he hhead).suffix.length_le
    have htotal := Cursor.length_flatten_le h.block
    rw [hat.dataBlocks_eq]
    exact passRounds_spec h (.parked live hat he hhead) hv (by omega)

/-- The index leads to a block with no entry at or above `start` before it. -/
theorem startBlock_spec {blocks : Nat → Bytes} (h : TableOn sh blocks base k bs rdelBlocks minSeq) (hne : bs ≠ [])
    (hs : bs.flatten.Pairwise fun x y => x.key ≤ y.key) {tref : TableRef} (ht : Cursor.PointsTo tref base bs rdelBlocks)
    (start : Bytes) : ∃ i < bs.length,
      (startBlock sh tref (base + bs.length + rdelBlocks + 2) start).eval blocks = .ok i ∧
        ∀ e ∈ (bs.take i).flatten, e.key < start := by
  have hids := h.ids
  have hidx : Indexed sh base bs := ⟨h.block, hs, by omega, h.fits⟩
  have hfirst : tref.dataFirst = base := ht.firstBlock_eq
  have hpos : 0 < bs.length := List.length_pos_iff.mpr hne
  unfold startBlock
  rw [Reads.eval_bind, readIndex_spec h]
  dsimp only [Except.bind]
  rw [Reads.eval_bind, Reads.eval_ofExcept, hfirst]
  rcases hidx.lookup start (base + bs.length + rdelBlocks + 1) with ⟨hnone, -⟩ | ⟨pos, hlt, hsome, hbelow⟩
  · rw [hnone]
    exact ⟨0, hpos, rfl, by simp⟩
  · rw [hsome]
    refine ⟨pos, hlt, ?_, hidx.lt_of_before hlt hbelow⟩
    show Reads.eval blocks (if base + pos < base then _ else _) = _
    rw [if_neg (by omega), show base + pos - base = pos by omega]
    rfl

/-- A fresh cursor stands in front of every entry at or above `start`. -/
theorem init_spec {blocks : Nat → Bytes} (h : TableOn sh blocks base k bs rdelBlocks minSeq)
    (hs : bs.flatten.Pairwise fun x y => x.key ≤ y.key) {tref : TableRef} (ht : Cursor.PointsTo tref base bs rdelBlocks)
    (start : Bytes) :
    bs = [] ∧ (init sh tref start).eval blocks = .ok none ∨
      ∃ cur i b, (init sh tref start).eval blocks = .ok (some cur) ∧ cur.live = true ∧ cur.nodeId = tref.nodeId ∧
        cur.sealWall = tref.sealWall ∧ At sh base bs cur i b 0 ∧ ∀ e ∈ (bs.take i).flatten, e.key < start := by
  have hids := h.ids
  have hfirst : tref.dataFirst = base := ht.firstBlock_eq
  obtain ⟨hcount, hfooter⟩ := blocks_of_pointsTo ht
  unfold init
  rw [hcount, hfooter, hfirst]
  dsimp only
  by_cases hzero : bs.length = 0
  · rw [if_pos hzero]
    exact Or.inl ⟨List.length_eq_zero_iff.mp hzero, rfl⟩
  · right
    obtain ⟨i, hi, hstart, hbelow⟩ := startBlock_spec h (mt List.length_eq_zero_iff.mpr hzero) hs ht start
    have hget := List.getElem?_eq_getElem hi
    rw [if_neg hzero, Reads.eval_bind, hstart]
    dsimp only [Except.bind]
    rw [if_neg (by omega), if_neg (by omega), Reads.eval_bind, loadBlock_spec h hget]
    exact ⟨_, i, bs[i], rfl, rfl, rfl, rfl,
      ⟨rfl, rfl, rfl, rfl, rfl, (Cursor.offsetOf_zero _).symm, hget, Nat.zero_le _⟩, hbelow⟩

end ScanCursor

end Horton
