import Horton.Scan.Blocks
import Horton.Scan.Parked

/-!
# Searching a block backwards

`search_block_rev` of `scan.rs`: the restart points of a data block are searched for the last one that can lead to an entry
within the bound, and from there the regions are walked backwards.  The versions of a key are stored newest first, so a
backward walk meets the older ones first; `searchBlockRev_spec` says that the newest visible version of the greatest key
comes out, wherever its run lies in the block.
-/

namespace Horton

open BlockDev Sstable

namespace Scans

variable (sh : Shape)

/-- The bound of a backward search: a key, and whether the key itself qualifies. -/
abbrev Bound := Option (Bytes × Bool)

def boundOk : Bound → Bytes → Bool
  | none, _ => true
  | some (bk, inclusive), key => decide (key < bk) || (inclusive && decide (key = bk))

/-- Past the bound. -/
def dominated : Bound → Bytes → Bool
  | none, _ => false
  | some (bk, inclusive), key => if inclusive then decide (bk < key) else decide (bk ≤ key)

/-- The offset of restart point `i` of `rcount`. -/
def restartOff (body : Bytes) (stop rcount i : Nat) : Option Nat :=
  if i ≥ rcount then none else restartAt body stop i

def entryKeyAt (body : Bytes) (off stop id : Nat) : Except Error Bytes := do
  let (entry, _) ← parseDataEntry body off stop id
  return entry.key

/-- Restart 0 is always offset 0. -/
def blockFirstKey (body : Bytes) (stop id : Nat) : Except Error Bytes := entryKeyAt body 0 stop id

/-- The last restart whose key is within the bound: the loop takes every such restart for its answer and goes on above it, so
the answer is one below where the search ends. -/
def lastQualifyingRestart (body : Bytes) (id stop rcount : Nat) (bound : Bound) : Except Error (Option Nat) := do
  let lo ← Search.lowerBound (fun mid => do
    let roff ← orCorrupt id (restartOff body stop rcount mid)
    let key ← entryKeyAt body roff stop id
    return boundOk bound key) rcount 0 rcount
  return if lo = 0 then none else some (lo - 1)

/-- The best entry of a region, with its offset: among equal keys the first.  `top` is the region that ends in padding. -/
def regionBest (body : Bytes) (stop id limit : Nat) (top : Bool) (bound : Bound) (maxSeq : Nat) :
    Nat → Nat → Option (SstEntry × Nat) → Except Error (Option (SstEntry × Nat))
  | 0, _, rbest => .ok rbest
  | fuel + 1, off, rbest =>
    if off < limit then
      match parseDataEntry body off stop id with
      | .error _ =>
        if top && Bytes.allZero ((body.drop off).take (stop - off)) then .ok rbest else .error (.corruptBlock id)
      | .ok (entry, next) =>
        if dominated bound entry.key then .ok rbest
        else if entry.seq ≤ maxSeq && rbest.all fun rb => decide (rb.1.key < entry.key) then
          regionBest body stop id limit top bound maxSeq fuel next (some (entry, off))
        else regionBest body stop id limit top bound maxSeq fuel next rbest
    else .ok rbest

/-- The early break before region `j`: the next region starts below the best key. -/
def nextBelow (body : Bytes) (id stop rcount rstart j : Nat) (best : Option (SstEntry × Nat)) : Except Error Bool :=
  match best with
  | some b =>
    if j < rstart then do
      let nroff ← orCorrupt id (restartOff body stop rcount (j + 1))
      let nkey ← entryKeyAt body nroff stop id
      return decide (nkey < b.1.key)
    else .ok false
  | none => .ok false

/-- Where region `j` ends. -/
def regionLimit (body : Bytes) (id stop rcount rstart j : Nat) : Except Error Nat :=
  if j = rstart then .ok stop else orCorrupt id (restartOff body stop rcount (j + 1))

/-- The best of a region against that of the later ones: a tie keeps the earlier region's version. -/
def keepEarlier (rbest best : Option (SstEntry × Nat)) : Option (SstEntry × Nat) :=
  match rbest with
  | some rb => if best.all fun b => decide (b.1.key ≤ rb.1.key) then some rb else best
  | none => best

/-- One region of the walk. -/
def walkRegion (body : Bytes) (id stop rcount rstart j : Nat) (bound : Bound) (maxSeq : Nat)
    (best : Option (SstEntry × Nat)) : Except Error (Option (SstEntry × Nat)) := do
  let rs ← orCorrupt id (restartOff body stop rcount j)
  let limit ← regionLimit body id stop rcount rstart j
  let rbest ← regionBest body stop id limit (j = rstart) bound maxSeq (sh.BLOCK + 1) rs none
  return keepEarlier rbest best

/-- The regions from `j` down. -/
def walkRegionsFrom (body : Bytes) (id stop rcount rstart : Nat) (bound : Bound) (maxSeq : Nat) :
    Nat → Option (SstEntry × Nat) → Except Error (Option (SstEntry × Nat))
  | 0, best => do
    if ← nextBelow body id stop rcount rstart 0 best then return best
    else walkRegion sh body id stop rcount rstart 0 bound maxSeq best
  | j + 1, best => do
    if ← nextBelow body id stop rcount rstart (j + 1) best then return best
    else
      let best ← walkRegion sh body id stop rcount rstart (j + 1) bound maxSeq best
      walkRegionsFrom body id stop rcount rstart bound maxSeq j best

def walkRegionsRev (body : Bytes) (id stop rcount rstart : Nat) (bound : Bound) (maxSeq : Nat) :
    Except Error (Option (SstEntry × Nat)) :=
  walkRegionsFrom sh body id stop rcount rstart bound maxSeq rstart none

/-- The greatest entry of a block within the bound that a scan at `maxSeq` sees, with its offset. -/
def searchBlockRev (body : Bytes) (id stop : Nat) (bound : Bound) (maxSeq : Nat) :
    Except Error (Option (SstEntry × Nat)) := do
  let rcount := Bytes.leNat (body.drop (bodyEnd sh - 2))
  if rcount = 0 then .error (.corruptBlock id)
  else
    match ← lastQualifyingRestart body id stop rcount bound with
    | none => return none
    | some rstart => walkRegionsRev sh body id stop rcount rstart bound maxSeq

/-! ### The bound -/

variable {sh} {bound : Bound} {maxSeq : Nat} {key key' : Bytes} {b : List SstEntry} {id : Nat}

theorem dominated_eq (bound : Bound) (key : Bytes) : dominated bound key = !boundOk bound key := by
  unfold dominated boundOk
  cases bound with
  | none => rfl
  | some p =>
    obtain ⟨bk, inclusive⟩ := p
    cases inclusive with
    | true =>
      rcases lt_trichotomy key bk with h | h | h
      · simp [h, not_lt.mpr h.le]
      · simp [h]
      · simp [h, not_lt.mpr h.le, ne_of_gt h]
    | false =>
      by_cases h : key < bk
      · simp [h]
      · simp [h, not_lt.mp h]

theorem boundOk_mono (h : boundOk bound key = true) (hle : key' ≤ key) : boundOk bound key' = true := by
  unfold boundOk at *
  cases bound with
  | none => rfl
  | some p =>
    obtain ⟨bk, inclusive⟩ := p
    simp only [Bool.or_eq_true, Bool.and_eq_true, decide_eq_true_eq] at h ⊢
    rcases h with h | ⟨hi, rfl⟩
    · exact Or.inl (lt_of_le_of_lt hle h)
    · rcases lt_or_eq_of_le hle with hlt | heq
      · exact Or.inl hlt
      · exact Or.inr ⟨hi, heq⟩

/-! ### In a region -/

/-- An entry that a scan at `maxSeq` sees. -/
def sees (maxSeq : Nat) (e : SstEntry) : Bool := decide (e.seq ≤ maxSeq)

/-- What a search keeps of an entry: the entry as it is read back, and its offset in the block. -/
def Found (b : List SstEntry) (o : Option SstEntry) (hit : Option (SstEntry × Nat)) : Prop :=
  match o with
  | none => hit = none
  | some e => ∃ m, b[m]? = some e ∧ hit = some (stored e, offsetOf b m)

theorem stored_key (e : SstEntry) : (stored e).key = e.key := rfl

theorem stored_seq (e : SstEntry) : (stored e).seq = e.seq := rfl

/-- The head of a list of versions in a backward search. -/
abbrev IsTop (l : List SstEntry) (maxSeq : Nat) (bound : Bound) : Option SstEntry → Prop :=
  IsHead (fun a b : Bytes => b ≤ a) SstEntry.key (l.filter (sees maxSeq)) (boundOk bound · = true)

variable {o : Option SstEntry} {hit : Option (SstEntry × Nat)} {l₀ : List SstEntry} {i j n : Nat}

theorem offsetOf_lt_offsetOf (hij : i < j) (hj : j ≤ b.length) : offsetOf b i < offsetOf b j := by
  obtain ⟨k, rfl⟩ : ∃ k, j = i + 1 + k := ⟨j - (i + 1), by omega⟩
  clear hij
  induction k with
  | zero =>
    have hi : i < b.length := by omega
    have hpos := encodeEntry_pos b[i]
    rw [Nat.add_zero, offsetOf_succ (List.getElem?_eq_getElem hi)]
    omega
  | succ k ih =>
    have hprev := ih (by omega)
    have hlast : i + 1 + k < b.length := by omega
    have hsucc := offsetOf_succ (List.getElem?_eq_getElem hlast)
    rw [show i + 1 + (k + 1) = i + 1 + k + 1 by omega, hsucc]
    omega

/-- The search of a region from entry `i` to entry `n`: behind the entries `l₀`, whose best one is `o`. -/
theorem regionBest_spec (hb : BlockOk sh b) (hs : b.Pairwise fun x y => x.key ≤ y.key) (id : Nat) {top : Bool}
    {limit fuel : Nat}
    (hend : top = true ∧ limit = rstartOf sh b ∧ n = b.length ∨ limit = offsetOf b n ∧ n ≤ b.length) (hin : i ≤ n)
    (htop : IsTop l₀ maxSeq bound o) (hfound : Found b o hit) (hle : ∀ x ∈ l₀, ∀ y ∈ b.drop i, x.key ≤ y.key)
    (hf : n - i < fuel) :
    ∃ o' hit', regionBest (logicalBody sh b) (rstartOf sh b) id limit top bound maxSeq fuel (offsetOf b i) hit = .ok hit' ∧
      Found b o' hit' ∧ IsTop (l₀ ++ (b.drop i).take (n - i)) maxSeq bound o' := by
  have hlen := hb.length_le.1
  have hnb : n ≤ b.length := by omega
  induction fuel generalizing i l₀ o hit with
  | zero => omega
  | succ fuel ih =>
    rw [regionBest]
    by_cases hi : i = n
    · subst hi
      refine ⟨o, hit, ?_, hfound, by rwa [Nat.sub_self, List.take_zero, List.append_nil]⟩
      rcases hend with ⟨rfl, rfl, rfl⟩ | ⟨rfl, -⟩
      · rw [offsetOf_length]
        split
        · rw [parseDataEntry_end hb]
          dsimp only
          rw [if_pos (by rw [Bool.true_and]; exact hb.entries.padding)]
        · rfl
      · rw [if_neg (lt_irrefl _)]
    · have hlt : i < b.length := by omega
      have hget := List.getElem?_eq_getElem hlt
      have hoff : offsetOf b i < limit := by
        rcases hend with ⟨-, rfl, -⟩ | ⟨rfl, -⟩
        · exact lt_of_lt_of_le (offsetOf_lt hlt) hlen
        · exact offsetOf_lt_offsetOf (by omega) hnb
      have hdrop : b.drop i = b[i] :: b.drop (i + 1) := List.drop_eq_getElem_cons hlt
      have hslice : (b.drop i).take (n - i) = b[i] :: (b.drop (i + 1)).take (n - (i + 1)) := by
        rw [hdrop, show n - i = n - (i + 1) + 1 by omega, List.take_succ_cons]
      have habove : ∀ x ∈ l₀, x.key ≤ b[i].key := fun x hx => hle x hx b[i] (by rw [hdrop]; exact List.mem_cons_self)
      have hdropLe : ∀ y ∈ b.drop i, b[i].key ≤ y.key := key_le_of_drop hs hget
      have hnext : ∀ x ∈ l₀ ++ [b[i]], ∀ y ∈ b.drop (i + 1), x.key ≤ y.key := by
        intro x hx y hy
        have hy' : y ∈ b.drop i := by rw [hdrop]; exact List.mem_cons_of_mem _ hy
        rcases List.mem_append.mp hx with hx | hx
        · exact hle x hx y hy'
        · rw [List.mem_singleton.mp hx]
          exact hdropLe y hy'
      rw [if_pos hoff, parseDataEntry_spec hb hget]
      dsimp only
      rw [stored_key, stored_seq, dominated_eq, hslice]
      cases hok : boundOk bound b[i].key with
      | false =>
        -- Past the bound, and so is all that follows.
        rw [Bool.not_false, if_pos rfl, ← hslice]
        refine ⟨o, hit, rfl, hfound, ?_⟩
        unfold IsTop
        rw [List.filter_append]
        refine htop.append_left fun x hx hP => ?_
        have hx' : x ∈ b.drop i := List.mem_of_mem_take (List.mem_of_mem_filter hx)
        rw [boundOk_mono hP (hdropLe x hx')] at hok
        cases hok
      | true =>
        rw [Bool.not_true, if_neg Bool.false_ne_true]
        have hassoc : l₀ ++ b[i] :: (b.drop (i + 1)).take (n - (i + 1)) =
            (l₀ ++ [b[i]]) ++ (b.drop (i + 1)).take (n - (i + 1)) := by simp
        rw [hassoc]
        have hfilter : (l₀ ++ [b[i]]).filter (sees maxSeq) = l₀.filter (sees maxSeq) ++ [b[i]].filter (sees maxSeq) :=
          List.filter_append ..
        cases hseq : decide (b[i].seq ≤ maxSeq) with
        | false =>
          have hno : [b[i]].filter (sees maxSeq) = [] := by unfold sees; simp [hseq]
          rw [Bool.false_and, if_neg Bool.false_ne_true]
          refine ih (by omega) ?_ hfound hnext (by omega)
          unfold IsTop
          rw [hfilter, hno, List.append_nil]
          exact htop
        | true =>
          have hyes : [b[i]].filter (sees maxSeq) = [b[i]] := by unfold sees; simp [hseq]
          rw [Bool.true_and]
          have hcase : (hit.all fun rb => decide (rb.1.key < b[i].key)) = o.all fun a => decide (a.key < b[i].key) := by
            cases o with
            | none => rw [show hit = none from hfound]; rfl
            | some a =>
              obtain ⟨m, -, rfl⟩ := hfound
              rfl
          rw [hcase]
          cases hbetter : o.all fun a => decide (a.key < b[i].key) with
          | true =>
            rw [if_pos rfl]
            refine ih (o := some b[i]) (by omega) ?_ ⟨i, hget, rfl⟩ hnext (by omega)
            unfold IsTop
            rw [hfilter, hyes]
            refine IsHead.append_second ⟨hok, by simp, by simp⟩ fun x hx hP => ?_
            have hx' := List.mem_of_mem_filter hx
            refine ⟨habove x hx', ?_⟩
            cases o with
            | none => exact absurd hP (htop x hx)
            | some a =>
              have ha : a.key < b[i].key := of_decide_eq_true hbetter
              exact ne_of_lt (lt_of_le_of_lt (htop.2.2 x hx hP) ha)
          | false =>
            rw [if_neg Bool.false_ne_true]
            cases o with
            | none => cases hbetter
            | some a =>
              refine ih (o := some a) (by omega) ?_ hfound hnext (by omega)
              unfold IsTop
              rw [hfilter, hyes]
              refine IsHead.append_first htop fun x hx _ => ?_
              rw [List.mem_singleton.mp hx]
              exact not_lt.mp (of_decide_eq_false hbetter)

/-! ### The walk over the regions -/

variable {rstart : Nat}

theorem restartOff_spec (hb : BlockOk sh b) (hj : j < (restartsOf b).length) :
    restartOff (logicalBody sh b) (rstartOf sh b) (restartsOf b).length j = some (offsetOf b (16 * j)) := by
  have hcount := length_restartsOf b
  unfold restartOff
  rw [if_neg (by omega), hb.restartAt (by omega)]

theorem entryKeyAt_spec (hb : BlockOk sh b) (id : Nat) {e : SstEntry} (he : b[i]? = some e) :
    entryKeyAt (logicalBody sh b) (offsetOf b i) (rstartOf sh b) id = .ok e.key := by
  unfold entryKeyAt
  rw [parseDataEntry_spec hb he]
  rfl

/-- What a walk has behind it before region `j`. -/
def Walked (b : List SstEntry) (maxSeq : Nat) (bound : Bound) (rstart j : Nat) (o : Option SstEntry)
    (hit : Option (SstEntry × Nat)) : Prop :=
  j = rstart ∧ o = none ∧ hit = none ∨ j < rstart ∧ Found b o hit ∧ IsTop (b.drop (16 * (j + 1))) maxSeq bound o

theorem walkRegion_spec (hb : BlockOk sh b) (hs : b.Pairwise fun x y => x.key ≤ y.key) (id : Nat)
    (hr : rstart < (restartsOf b).length) (h : Walked b maxSeq bound rstart j o hit) :
    ∃ o' hit', walkRegion sh (logicalBody sh b) id (rstartOf sh b) (restartsOf b).length rstart j bound maxSeq hit =
      .ok hit' ∧
      Found b o' hit' ∧ IsTop (b.drop (16 * j)) maxSeq bound o' := by
  have hcount := length_restartsOf b
  have hlen := length_le_encodeEntries b
  have hroom := hb.room
  have hjr : j ≤ rstart := by rcases h with ⟨rfl, -⟩ | ⟨hlt, -⟩ <;> omega
  have hj16 : 16 * j < b.length := by omega
  have hstart : IsTop ([] : List SstEntry) maxSeq bound none := fun x hx => absurd hx (by simp)
  have hnothing : Found b none none := rfl
  have hvalue : ∀ {limit : Nat} {rbest : Option (SstEntry × Nat)},
      regionLimit (logicalBody sh b) id (rstartOf sh b) (restartsOf b).length rstart j = .ok limit →
      regionBest (logicalBody sh b) (rstartOf sh b) id limit (decide (j = rstart)) bound maxSeq (sh.BLOCK + 1)
        (offsetOf b (16 * j)) none = .ok rbest →
      walkRegion sh (logicalBody sh b) id (rstartOf sh b) (restartsOf b).length rstart j bound maxSeq hit =
        .ok (keepEarlier rbest hit) := by
    intro limit rbest hlimit hrun
    unfold walkRegion
    rw [restartOff_spec hb (by omega)]
    show (regionLimit _ _ _ _ _ _ >>= _) = _
    rw [hlimit]
    show (regionBest _ _ _ _ _ _ _ _ _ _ >>= _) = _
    rw [hrun]
    rfl
  rcases h with ⟨rfl, rfl, rfl⟩ | ⟨hlt, hfound, htop⟩
  · -- The region the padding ends.
    have hend : true = true ∧ rstartOf sh b = rstartOf sh b ∧ b.length = b.length ∨
        rstartOf sh b = offsetOf b b.length ∧ b.length ≤ b.length := Or.inl ⟨rfl, rfl, rfl⟩
    have hfuel : b.length - 16 * j < sh.BLOCK + 1 := by omega
    obtain ⟨o', hit', hrun, hfound', htop'⟩ := regionBest_spec hb hs id hend hj16.le hstart hnothing
      (fun x hx => absurd hx (by simp)) hfuel
    rw [List.nil_append, List.take_of_length_le (by rw [List.length_drop])] at htop'
    refine ⟨o', hit', ?_, hfound', htop'⟩
    have hkeep : keepEarlier hit' none = hit' := by cases hit' <;> rfl
    rw [hvalue (by unfold regionLimit; rw [if_pos rfl]) (by rw [decide_eq_true rfl]; exact hrun), hkeep]
  · have hnext : 16 * (j + 1) ≤ b.length := by omega
    have hend : false = true ∧ offsetOf b (16 * (j + 1)) = rstartOf sh b ∧ 16 * (j + 1) = b.length ∨
        offsetOf b (16 * (j + 1)) = offsetOf b (16 * (j + 1)) ∧ 16 * (j + 1) ≤ b.length := Or.inr ⟨rfl, hnext⟩
    have hfuel : 16 * (j + 1) - 16 * j < sh.BLOCK + 1 := by omega
    obtain ⟨o', hit', hrun, hfound', htop'⟩ := regionBest_spec hb hs id hend (by omega) hstart hnothing
      (fun x hx => absurd hx (by simp)) hfuel
    rw [List.nil_append] at htop'
    have hsplit : b.drop (16 * j) = (b.drop (16 * j)).take (16 * (j + 1) - 16 * j) ++ b.drop (16 * (j + 1)) := by
      conv_lhs => rw [← List.take_append_drop (16 * (j + 1) - 16 * j) (b.drop (16 * j)), List.drop_drop]
      congr 2
      omega
    have hlimit : regionLimit (logicalBody sh b) id (rstartOf sh b) (restartsOf b).length rstart j =
        .ok (offsetOf b (16 * (j + 1))) := by
      unfold regionLimit
      rw [if_neg (by omega), restartOff_spec hb (by omega)]
      rfl
    rw [hvalue hlimit (by rw [decide_eq_false (by omega)]; exact hrun), hsplit]
    unfold keepEarlier
    unfold IsTop at htop htop' ⊢
    rw [List.filter_append]
    cases o' with
    | none =>
      rw [show hit' = none from hfound']
      exact ⟨o, hit, rfl, hfound, htop.append_none htop'⟩
    | some a =>
      obtain ⟨m, hm, rfl⟩ := hfound'
      dsimp only
      rw [stored_key]
      cases o with
      | none =>
        rw [show hit = none from hfound, Option.all_none, if_pos rfl]
        exact ⟨some a, _, rfl, ⟨m, hm, rfl⟩, htop'.append_left htop⟩
      | some e =>
        obtain ⟨m', hm', rfl⟩ := hfound
        rw [Option.all_some, stored_key]
        by_cases hle : e.key ≤ a.key
        · rw [if_pos (decide_eq_true hle)]
          refine ⟨some a, _, rfl, ⟨m, hm, rfl⟩, htop'.append_first fun x hx hP => ?_⟩
          exact (htop.2.2 x hx hP).trans hle
        · rw [if_neg (by simpa using hle)]
          refine ⟨some e, _, rfl, ⟨m', hm', rfl⟩, htop.append_second fun x hx hP => ?_⟩
          have hlt' := lt_of_le_of_lt (htop'.2.2 x hx hP) (not_le.mp hle)
          exact ⟨hlt'.le, ne_of_lt hlt'⟩

/-- The early break is sound: no entry further back ties the best one. -/
theorem nextBelow_spec (hb : BlockOk sh b) (hs : b.Pairwise fun x y => x.key ≤ y.key) (id : Nat)
    (hr : rstart < (restartsOf b).length) (h : Walked b maxSeq bound rstart j o hit) :
    ∃ stop, nextBelow (logicalBody sh b) id (rstartOf sh b) (restartsOf b).length rstart j hit = .ok stop ∧
      (stop = true → Found b o hit ∧ IsTop b maxSeq bound o) := by
  have hcount := length_restartsOf b
  unfold nextBelow
  rcases h with ⟨rfl, rfl, rfl⟩ | ⟨hlt, hfound, htop⟩
  · exact ⟨false, rfl, fun h => by cases h⟩
  · cases o with
    | none =>
      rw [show hit = none from hfound]
      exact ⟨false, rfl, fun h => by cases h⟩
    | some e =>
      obtain ⟨m, hm, rfl⟩ := hfound
      have hnext : 16 * (j + 1) < b.length := by omega
      have hget := List.getElem?_eq_getElem hnext
      dsimp only
      rw [if_pos hlt, restartOff_spec hb (by omega)]
      refine ⟨decide (b[16 * (j + 1)].key < e.key), ?_, fun hstop => ⟨⟨m, hm, rfl⟩, ?_⟩⟩
      · show (entryKeyAt _ _ _ _ >>= _) = _
        rw [entryKeyAt_spec hb id hget]
        rfl
      · have hbelow := of_decide_eq_true hstop
        unfold IsTop at htop ⊢
        rw [← List.take_append_drop (16 * (j + 1)) b, List.filter_append]
        refine htop.append_second fun x hx _ => ?_
        have hlt' := lt_of_le_of_lt (key_le_of_take hs hget x (List.mem_of_mem_filter hx)) hbelow
        exact ⟨hlt'.le, ne_of_lt hlt'⟩

theorem walkRegionsFrom_spec (hb : BlockOk sh b) (hs : b.Pairwise fun x y => x.key ≤ y.key) (id : Nat)
    (hr : rstart < (restartsOf b).length) (h : Walked b maxSeq bound rstart j o hit) :
    ∃ o' hit', walkRegionsFrom sh (logicalBody sh b) id (rstartOf sh b) (restartsOf b).length rstart bound maxSeq j hit =
      .ok hit' ∧ Found b o' hit' ∧ IsTop b maxSeq bound o' := by
  induction j generalizing o hit with
  | zero =>
    obtain ⟨stop, hstop, hsound⟩ := nextBelow_spec hb hs id hr h
    obtain ⟨o', hit', hrun, hfound, htop⟩ := walkRegion_spec hb hs id hr h
    rw [walkRegionsFrom, hstop]
    cases stop with
    | true =>
      obtain ⟨hf, ht⟩ := hsound rfl
      exact ⟨o, hit, rfl, hf, ht⟩
    | false =>
      refine ⟨o', hit', hrun, hfound, ?_⟩
      rwa [Nat.mul_zero, List.drop_zero] at htop
  | succ j ih =>
    obtain ⟨stop, hstop, hsound⟩ := nextBelow_spec hb hs id hr h
    obtain ⟨o', hit', hrun, hfound, htop⟩ := walkRegion_spec hb hs id hr h
    rw [walkRegionsFrom, hstop]
    cases stop with
    | true =>
      obtain ⟨hf, ht⟩ := hsound rfl
      exact ⟨o, hit, rfl, hf, ht⟩
    | false =>
      have hlt : j < rstart := by rcases h with ⟨rfl, -⟩ | ⟨hlt, -⟩ <;> omega
      obtain ⟨o'', hit'', hgo, hfound', htop'⟩ := ih (Or.inr ⟨hlt, hfound, htop⟩)
      refine ⟨o'', hit'', ?_, hfound', htop'⟩
      show (walkRegion _ _ _ _ _ _ _ _ _ _ >>= _) = _
      rw [hrun]
      exact hgo

/-! ### The search of a block -/

theorem lastQualifyingRestart_spec (hb : BlockOk sh b) (hs : b.Pairwise fun x y => x.key ≤ y.key) (bound : Bound)
    (id : Nat) :
    ∃ m ≤ (restartsOf b).length,
      (∀ i e, b[16 * i]? = some e → (boundOk bound e.key = true ↔ i < m)) ∧
        lastQualifyingRestart (logicalBody sh b) id (rstartOf sh b) (restartsOf b).length bound =
          .ok (if m = 0 then none else some (m - 1)) := by
  have hcount := length_restartsOf b
  obtain ⟨m, hm, hsplit⟩ := Search.exists_threshold (q := fun i => b[16 * i]?.any fun e => boundOk bound e.key)
    (n := (restartsOf b).length) fun i j hij hj hok => by
      have hj' : 16 * j < b.length := by omega
      have hi' : 16 * i < b.length := by omega
      rw [List.getElem?_eq_getElem hj'] at hok
      rw [List.getElem?_eq_getElem hi']
      refine boundOk_mono hok (key_le_of_drop hs (List.getElem?_eq_getElem hi') _ ?_)
      rw [List.mem_drop_iff_getElem]
      exact ⟨16 * j - 16 * i, by omega, by congr 1; omega⟩
  have hbelow : ∀ i < (restartsOf b).length, (do
      let roff ← orCorrupt id (restartOff (logicalBody sh b) (rstartOf sh b) (restartsOf b).length i)
      let key ← entryKeyAt (logicalBody sh b) roff (rstartOf sh b) id
      return boundOk bound key : Except Error Bool) = .ok (decide (i < m)) := by
    intro i hi
    have hi' : 16 * i < b.length := by omega
    have hget := List.getElem?_eq_getElem hi'
    rw [restartOff_spec hb hi, ← hsplit i hi, hget]
    show (entryKeyAt _ _ _ _ >>= _) = _
    rw [entryKeyAt_spec hb id hget]
    rfl
  refine ⟨m, hm, fun i e he => ?_, ?_⟩
  · have hlt := (List.getElem?_eq_some_iff.mp he).1
    have := hsplit i (by omega)
    rw [he, Option.any_some] at this
    rw [this, decide_eq_true_eq]
  · unfold lastQualifyingRestart
    rw [Search.lowerBound_spec hbelow _ _ _ (by omega) (by omega) hm (Nat.le_refl _)]
    rfl

/-- The search finds the newest visible version of the greatest key within the bound. -/
theorem searchBlockRev_spec (hb : BlockOk sh b) (hs : b.Pairwise fun x y => x.key ≤ y.key) (bound : Bound)
    (maxSeq id : Nat) :
    ∃ o hit, searchBlockRev sh (logicalBody sh b) id (rstartOf sh b) bound maxSeq = .ok hit ∧ Found b o hit ∧
      IsTop b maxSeq bound o := by
  have hcount := length_restartsOf b
  have hpos : 0 < b.length := List.length_pos_iff.mpr hb.ne_nil
  have hrcount : Bytes.leNat ((logicalBody sh b).drop (bodyEnd sh - 2)) = (restartsOf b).length := by
    have hr := hb.restarts_le
    have hu : U16_MAX = 0xFFFF := rfl
    rw [hb.drop_logicalBody]
    exact leNat_two (by omega)
  obtain ⟨m, hm, hsplit, hlast⟩ := lastQualifyingRestart_spec hb hs bound id
  unfold searchBlockRev
  rw [hrcount]
  dsimp only
  rw [if_neg (by omega), hlast]
  by_cases hm0 : m = 0
  · rw [if_pos hm0]
    refine ⟨none, none, rfl, rfl, fun x hx hP => ?_⟩
    have hfirst := List.getElem?_eq_getElem hpos
    have hle := key_le_of_drop hs hfirst x (by simpa using List.mem_of_mem_filter hx)
    have := (hsplit 0 b[0] (by rw [Nat.mul_zero]; exact hfirst)).mp (boundOk_mono hP hle)
    omega
  · rw [if_neg hm0]
    exact walkRegionsFrom_spec hb hs id (by omega) (Or.inl ⟨rfl, rfl, rfl⟩)

end Scans

end Horton
