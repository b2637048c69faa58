import Horton.Scan.Forward
import Horton.Scan.Reverse

/-!
# Scans agree with reads

What a whole scan gives, against point reads of the same handle: every item is what a read of its key answers, and no key of
the range that a read answers is missed.  The two directions give the same.
-/

namespace Horton

open BlockDev Sstable

namespace Scans

namespace Merge

variable {σ : Type} {m : Merge σ} {sh : Shape} {db : Db} {keyBuf valBuf fuel maxSeq now n : Nat} {s s' s'' : σ}
  {d d' d'' : Device} {items : List (Bytes × Bytes)} {blocks : Nat → Bytes} {c : Contents} {within : Bytes → Prop}
  {ended : Bytes → Bool} {Inv : Option Bytes → Nat → σ → Prop}

/-- A call that succeeds broke off no step. -/
theorem unbroken_of_ok (m : Merge σ) (sh : Shape) (db : Db) (keyBuf valBuf fuel : Nat) (s : σ) (d : Device) :
    (m.yieldRounds sh db keyBuf valBuf fuel).wp
      (fun o _ _ => ∀ r, o = .ok r → m.Unbroken sh db keyBuf valBuf fuel s d) s d := by
  induction fuel generalizing s d with
  | zero => exact fun _ _ => trivial
  | succ fuel ih =>
    rw [yieldRounds, Prog.wp_bind, Prog.wp_get, Prog.andThen_ok, Prog.wp_bind]
    refine Prog.wp_of_run fun o s₁ d₁ hrun => ?_
    rw [Unbroken, hrun]
    cases o with
    | err e => exact fun _ _ => trivial
    | cut => exact fun _ _ => trivial
    | dropped => exact fun _ _ => trivial
    | ok t =>
      rw [Prog.andThen_ok]
      cases t with
      | done => exact fun _ _ => trivial
      | hide key =>
        dsimp only
        rw [Prog.wp_bind]
        refine Prog.wp_of_run fun o₂ s₂ d₂ hrun₂ => ?_
        rw [hrun₂]
        cases o₂ with
        | ok u =>
          rw [Prog.andThen_ok]
          exact Prog.wp_mono (ih s₂ d₂) fun o _ _ h r hr => ⟨rfl, h r hr⟩
        | err e => exact fun r hr => by cases hr
        | cut => exact fun r hr => by cases hr
        | dropped => exact fun r hr => by cases hr
      | give key val =>
        dsimp only
        rw [Prog.wp_bind]
        refine Prog.wp_of_run fun o₂ s₂ d₂ hrun₂ => ?_
        rw [hrun₂]
        cases o₂ with
        | ok u => exact fun _ _ => rfl
        | err e => exact fun r hr => by cases hr
        | cut => exact fun r hr => by cases hr
        | dropped => exact fun r hr => by cases hr

/-- The scan at `s` has nothing more to give: some call says so. -/
def Finished (m : Merge σ) (sh : Shape) (db : Db) (s : σ) (d : Device) : Prop :=
  ∃ keyBuf valBuf, (m.yield sh db keyBuf valBuf s d).1 = .ok none

/-- What a scan gave from its seek on: in order, inside of its range, each key with what it shows; a key that shows a value is
passed over only where the scan has not come yet. -/
structure Gives (m : Merge σ) (within : Bytes → Prop) (ended : Bytes → Bool) (shownAt : Bytes → Option Bytes)
    (items : List (Bytes × Bytes)) (finished : Prop) : Prop where
  sorted : items.Pairwise fun x y => m.before x.1 y.1 = true
  item : ∀ x ∈ items, within x.1 ∧ ended x.1 = false ∧ shownAt x.1 = some x.2
  complete : ∀ k v, within k → ended k = false → shownAt k = some v → (∃ x ∈ items, m.before x.1 k = false) ∨ finished →
    (k, v) ∈ items

theorem Places.gives (hp : Places m sh blocks c db maxSeq now within ended Inv)
    (hcalls : m.Calls sh db s d items s' d') (hi : Inv none n s) (hd : d.blocks = blocks) :
    m.Gives within ended (fun k => shown (db.sourcesAt sh c k maxSeq) now) items (m.Finished sh db s' d') := by
  obtain ⟨hd', last, n', hi', hg⟩ := hp.calls_spec hcalls hi hd
  refine ⟨hg.sorted, fun x hx => ?_, fun k v hw he hs hend => ?_⟩
  · obtain ⟨hw, he, -, -, hs⟩ := hg.item x hx
    exact ⟨hw, he, hs⟩
  · cases hl : region m.before last k with
    | false => exact hg.complete k v hw he rfl hl hs
    | true =>
      exfalso
      rcases hend with ⟨x, hx, hxk⟩ | ⟨keyBuf, valBuf, hyield⟩
      · obtain ⟨-, -, -, hlx, -⟩ := hg.item x hx
        cases last with
        | none => cases hlx
        | some b =>
          have hbk : m.before b k = true := hl
          have hbx : m.before b x.1 = false := hlx
          by_cases heq : x.1 = k
          · rw [heq, hbk] at hbx
            cases hbx
          · have hkx : m.before k x.1 = true := (hp.total heq).resolve_left (by simp [hxk])
            rw [hp.trans hbk hkx] at hbx
            cases hbx
      · have hun : m.Unbroken sh db keyBuf valBuf (m.rounds s' + 1) s' d' :=
          unbroken_of_ok m sh db keyBuf valBuf (m.rounds s' + 1) s' d' none hyield
        have hcall := hp.yieldRounds_spec hi' hd' (Nat.lt_succ_of_le (hp.rounds hi')) hun
        obtain ⟨-, last', n'', hi'', hg', hnone⟩ := hcall
        have hgiven : given (m.yield sh db keyBuf valBuf s' d').1 = [] := by rw [hyield]; rfl
        have hnothing := hnone hyield k hw he
        cases hl' : region m.before last' k with
        | true =>
          rw [hs] at hnothing
          cases hnothing hl'
        | false =>
          have := hg'.complete k v hw he hl hl' hs
          rw [show given (m.yieldRounds sh db keyBuf valBuf (m.rounds s' + 1) s' d').1 = [] from hgiven] at this
          cases this

end Merge

/-! ### Against point reads -/

section Reads

variable {sh : Shape} {db : Db} {c : Contents} {maxSeq now : Nat} {blocks : Nat → Bytes}

/-- The handle reads its tables from the device, and the merge rule ranks the versions of every key. -/
structure Readable (sh : Shape) (blocks : Nat → Bytes) (c : Contents) (db : Db) (maxSeq : Nat) : Prop where
  sorted : db.table.iter.Pairwise Entry.Before
  tables : ∀ t ∈ db.scanOrder sh, c.On sh blocks t
  distinct : ∀ key, Version.Distinct (db.versionsAt sh c key maxSeq)
  ranked : ∀ key, ¬Version.Straddled (db.versionsAt sh c key maxSeq)

/-- A read answers what its key shows. -/
theorem Readable.readPoint (h : Readable sh blocks c db maxSeq) (key : Bytes) (valBuf now : Nat) :
    (db.readPoint sh key valBuf maxSeq now none).eval blocks = match shown (db.sourcesAt sh c key maxSeq) now with
      | none => .ok none
      | some v => if v.length > valBuf then .error (.bufferTooSmall v.length) else .ok (some v) := by
  have hr := (Version.ranked_iff (h.distinct key)).mpr (h.ranked key)
  exact Replies.unique (h.distinct key) hr (Db.readPoint_spec h.tables (h.distinct key) hr)
    (replies_shown (h.distinct key) hr)

theorem Readable.readPoint_some (h : Readable sh blocks c db maxSeq) {key val : Bytes} {valBuf now : Nat} :
    (db.readPoint sh key valBuf maxSeq now none).eval blocks = .ok (some val) ↔
      shown (db.sourcesAt sh c key maxSeq) now = some val ∧ val.length ≤ valBuf := by
  rw [h.readPoint]
  cases hs : shown (db.sourcesAt sh c key maxSeq) now with
  | none => simp
  | some v =>
    dsimp only
    split
    · rename_i hlong
      constructor
      · intro h
        cases h
      · rintro ⟨hv, hle⟩
        rw [Option.some.inj hv] at hlong
        omega
    · rename_i hshort
      constructor
      · intro h
        obtain rfl := Option.some.inj (Except.ok.inj h)
        exact ⟨rfl, by omega⟩
      · rintro ⟨hv, -⟩
        rw [hv]

end Reads

/-! ### Forward -/

section Forward

variable {sh : Shape} {db : Db} {c : Contents} {maxSeq now : Nat} {start : Bytes} {stop : Option Bytes} {s₀ s s' : Scan}
  {d d₁ d' : Device} {items : List (Bytes × Bytes)}

theorem Scan.opened_of_seek (h : (Scan.seekWithTime sh db start stop maxSeq now s₀ d).1 = .ok ()) : db.opened = true := by
  unfold Scan.seekWithTime at h
  cases ho : db.opened with
  | true => rfl
  | false =>
    rw [ho] at h
    cases h

/-- A forward scan behind its seek. -/
theorem Scan.gives (hs : db.table.iter.Pairwise Entry.Before) (hc : ∀ t ∈ db.scanOrder sh, c.On sh d.blocks t)
    (hseek : Scan.seekWithTime sh db start stop maxSeq now s₀ d = (.ok (), s, d₁))
    (hcalls : (Scan.merge sh db).Calls sh db s d₁ items s' d') :
    (Scan.merge sh db).Gives (start ≤ ·) (fun k => stop.any (· ≤ k)) (fun k => shown (db.sourcesAt sh c k maxSeq) now) items
      ((Scan.merge sh db).Finished sh db s' d') := by
  obtain ⟨hro, hplace | hhalt⟩ := Prog.wp_run (Scan.seek_spec hs hc s₀) hseek
  · exact (Scan.places hs hc start stop maxSeq now).gives hcalls ⟨hplace () rfl, rfl⟩ hro.1
  · exact hhalt.elim

/-- A forward scan agrees with point reads, call after call, whatever the calls return. -/
theorem forward_scan_agrees (h : Readable sh d.blocks c db maxSeq)
    (hseek : Scan.seekWithTime sh db start stop maxSeq now s₀ d = (.ok (), s, d₁))
    (hcalls : (Scan.merge sh db).Calls sh db s d₁ items s' d') :
    items.Pairwise (fun x y => x.1 < y.1) ∧
    (∀ x ∈ items, start ≤ x.1 ∧ (∀ e ∈ stop, x.1 < e) ∧
      ∀ valBuf, x.2.length ≤ valBuf → (db.getAtWithTime sh x.1 valBuf maxSeq now).eval d.blocks = .ok (some x.2)) ∧
    ∀ key val valBuf, start ≤ key → (∀ e ∈ stop, key < e) →
      (db.getAtWithTime sh key valBuf maxSeq now).eval d.blocks = .ok (some val) →
      (∃ x ∈ items, key ≤ x.1) ∨ (Scan.merge sh db).Finished sh db s' d' → (key, val) ∈ items := by
  have hopened : db.opened = true := Scan.opened_of_seek (by rw [hseek])
  obtain ⟨hsorted, hitem, hcomplete⟩ := Scan.gives h.sorted h.tables hseek hcalls
  have hended : ∀ k, stop.any (· ≤ k) = false ↔ ∀ e ∈ stop, k < e := by
    intro k
    cases stop <;> simp
  have hopen : ∀ k valBuf, db.getAtWithTime sh k valBuf maxSeq now = db.readPoint sh k valBuf maxSeq now none :=
    fun k valBuf => if_pos hopened
  simp only [hopen]
  refine ⟨hsorted.imp fun hb => of_decide_eq_true hb, fun x hx => ?_, fun key val valBuf hge hlt hget hend => ?_⟩
  · obtain ⟨hge, hend, hshown⟩ := hitem x hx
    exact ⟨hge, (hended _).mp hend, fun valBuf hle => h.readPoint_some.mpr ⟨hshown, hle⟩⟩
  · refine hcomplete key val hge ((hended _).mpr hlt) (h.readPoint_some.mp hget).1 (hend.imp_left ?_)
    rintro ⟨x, hx, hle⟩
    exact ⟨x, hx, decide_eq_false (not_lt.mpr hle)⟩

end Forward

/-! ### In reverse -/

section Reverse

variable {sh : Shape} {db : Db} {c : Contents} {maxSeq now : Nat} {start : Bytes} {lower : Option Bytes} {s₀ s s' : RevScan}
  {d d₁ d' : Device} {items : List (Bytes × Bytes)}

theorem RevScan.opened_of_seek (h : (RevScan.seekPrevWithTime sh db start lower maxSeq now s₀ d).1 = .ok ()) :
    db.opened = true := by
  unfold RevScan.seekPrevWithTime at h
  cases ho : db.opened with
  | true => rfl
  | false =>
    rw [ho] at h
    cases h

theorem findTable_eq (hn : (db.manifest.tables.map TableRef.id).Nodup) {t : TableRef} (ht : t ∈ db.manifest.tables) :
    db.manifest.findTable t.id = some t := by
  unfold Manifest.findTable
  cases hfind : db.manifest.tables.find? fun x => decide (x.id = t.id) with
  | none => simpa using List.find?_eq_none.mp hfind t ht
  | some t' =>
    have hid : t'.id = t.id := by simpa using List.find?_some hfind
    exact congrArg some (List.inj_on_of_nodup_map hn (List.mem_of_find?_eq_some hfind) ht hid)

/-- A key within the ceiling of a reverse scan; an empty one stands for none. -/
theorem boundOk_ceiling (start key : Bytes) : boundOk (RevCursor.ceiling start) key = true ↔ start = [] ∨ key ≤ start := by
  unfold RevCursor.ceiling
  cases start with
  | nil => simp [boundOk]
  | cons a as =>
    simp only [List.isEmpty_cons, Bool.false_eq_true, if_false, boundOk, Bool.true_and, Bool.or_eq_true, decide_eq_true_eq,
      reduceCtorEq, false_or]
    exact le_iff_lt_or_eq.symm

/-- A reverse scan behind its seek. -/
theorem RevScan.gives (hs : db.table.iter.Pairwise Entry.Before) (hc : ∀ t ∈ db.scanOrder sh, c.On sh d.blocks t)
    (hl : db.manifest.levels.length = sh.LEVELS) (hn : (db.manifest.tables.map TableRef.id).Nodup)
    (hseek : RevScan.seekPrevWithTime sh db start lower maxSeq now s₀ d = (.ok (), s, d₁))
    (hcalls : (RevScan.merge sh db).Calls sh db s d₁ items s' d') :
    (RevScan.merge sh db).Gives (fun k => boundOk (RevCursor.ceiling start) k = true) (fun k => lower.any (k ≤ ·))
      (fun k => shown (db.sourcesAt sh c k maxSeq) now) items ((RevScan.merge sh db).Finished sh db s' d') := by
  have hids : ∀ t ∈ db.scanOrder sh, db.manifest.findTable t.id = some t := by
    rw [Db.scanOrder_eq hl]
    exact fun t ht => findTable_eq hn ht
  obtain ⟨hro, hplace | hhalt⟩ := Prog.wp_run (RevScan.seek_spec hs hc hids s₀) hseek
  · exact (RevScan.places hs hc hids start lower maxSeq now).gives hcalls ⟨hplace () rfl, rfl⟩ hro.1
  · exact hhalt.elim

/-- A reverse scan agrees with point reads, call after call, whatever the calls return. -/
theorem reverse_scan_agrees (h : Readable sh d.blocks c db maxSeq) (hl : db.manifest.levels.length = sh.LEVELS)
    (hn : (db.manifest.tables.map TableRef.id).Nodup)
    (hseek : RevScan.seekPrevWithTime sh db start lower maxSeq now s₀ d = (.ok (), s, d₁))
    (hcalls : (RevScan.merge sh db).Calls sh db s d₁ items s' d') :
    items.Pairwise (fun x y => y.1 < x.1) ∧
    (∀ x ∈ items, (start = [] ∨ x.1 ≤ start) ∧ (∀ e ∈ lower, e < x.1) ∧
      ∀ valBuf, x.2.length ≤ valBuf → (db.getAtWithTime sh x.1 valBuf maxSeq now).eval d.blocks = .ok (some x.2)) ∧
    ∀ key val valBuf, start = [] ∨ key ≤ start → (∀ e ∈ lower, e < key) →
      (db.getAtWithTime sh key valBuf maxSeq now).eval d.blocks = .ok (some val) →
      (∃ x ∈ items, x.1 ≤ key) ∨ (RevScan.merge sh db).Finished sh db s' d' → (key, val) ∈ items := by
  have hopened : db.opened = true := RevScan.opened_of_seek (by rw [hseek])
  obtain ⟨hsorted, hitem, hcomplete⟩ := RevScan.gives h.sorted h.tables hl hn hseek hcalls
  have hended : ∀ k, lower.any (k ≤ ·) = false ↔ ∀ e ∈ lower, e < k := by
    intro k
    cases lower <;> simp
  have hopen : ∀ k valBuf, db.getAtWithTime sh k valBuf maxSeq now = db.readPoint sh k valBuf maxSeq now none :=
    fun k valBuf => if_pos hopened
  simp only [hopen]
  refine ⟨hsorted.imp fun hb => of_decide_eq_true hb, fun x hx => ?_, fun key val valBuf hle hgt hget hend => ?_⟩
  · obtain ⟨hin, hend, hshown⟩ := hitem x hx
    exact ⟨(boundOk_ceiling _ _).mp hin, (hended _).mp hend, fun valBuf hle => h.readPoint_some.mpr ⟨hshown, hle⟩⟩
  · refine hcomplete key val ((boundOk_ceiling _ _).mpr hle) ((hended _).mpr hgt) (h.readPoint_some.mp hget).1
      (hend.imp_left ?_)
    rintro ⟨x, hx, hle⟩
    exact ⟨x, hx, decide_eq_false (not_lt.mpr hle)⟩

end Reverse

/-! ### Both ways -/

/-- Items in ascending and in descending order of their keys. -/
theorem eq_reverse_of_sorted {up down : List (Bytes × Bytes)} (hup : up.Pairwise fun x y => x.1 < y.1)
    (hdown : down.Pairwise fun x y => y.1 < x.1) (hmem : ∀ x, x ∈ down ↔ x ∈ up) : down = up.reverse := by
  have : Std.Irrefl fun x y : Bytes × Bytes => y.1 < x.1 := ⟨fun x => lt_irrefl x.1⟩
  have : Std.Antisymm fun x y : Bytes × Bytes => y.1 < x.1 := ⟨fun x y h h' => absurd h' (lt_asymm h)⟩
  refine hdown.eq_of_mem_iff (List.pairwise_reverse.mpr hup) fun x => ?_
  rw [hmem, List.mem_reverse]

/-- Over the keys that both directions reach, a complete reverse scan gives the items of a complete forward scan, in opposite
order, whatever the versions. -/
theorem reverse_scan_mirrors {sh : Shape} {db : Db} {c : Contents} {maxSeq now : Nat} {start from_ : Bytes}
    {stop lower : Option Bytes} {d d₁ d₂ d₁' d₂' : Device} {s₀ s s' : Scan} {r₀ r r' : RevScan}
    {up down : List (Bytes × Bytes)} (hs : db.table.iter.Pairwise Entry.Before)
    (hc : ∀ t ∈ db.scanOrder sh, c.On sh d.blocks t) (hl : db.manifest.levels.length = sh.LEVELS)
    (hn : (db.manifest.tables.map TableRef.id).Nodup)
    (hseek : Scan.seekWithTime sh db start stop maxSeq now s₀ d = (.ok (), s, d₁))
    (hup : (Scan.merge sh db).Calls sh db s d₁ up s' d₁') (hupEnd : (Scan.merge sh db).Finished sh db s' d₁')
    (hseekPrev : RevScan.seekPrevWithTime sh db from_ lower maxSeq now r₀ d = (.ok (), r, d₂))
    (hdown : (RevScan.merge sh db).Calls sh db r d₂ down r' d₂') (hdownEnd : (RevScan.merge sh db).Finished sh db r' d₂') :
    (down.filter fun x => start ≤ x.1 ∧ ∀ e ∈ stop, x.1 < e) =
      (up.filter fun x => (from_ = [] ∨ x.1 ≤ from_) ∧ ∀ e ∈ lower, e < x.1).reverse := by
  obtain ⟨hsortedUp, hitemUp, hcompleteUp⟩ := Scan.gives hs hc hseek hup
  obtain ⟨hsortedDown, hitemDown, hcompleteDown⟩ := RevScan.gives hs hc hl hn hseekPrev hdown
  have hstop : ∀ k, stop.any (· ≤ k) = false ↔ ∀ e ∈ stop, k < e := by
    intro k
    cases stop <;> simp
  have hlower : ∀ k, lower.any (k ≤ ·) = false ↔ ∀ e ∈ lower, e < k := by
    intro k
    cases lower <;> simp
  refine eq_reverse_of_sorted ?_ ?_ fun x => ?_
  · exact (hsortedUp.sublist List.filter_sublist).imp fun hb => of_decide_eq_true hb
  · exact (hsortedDown.sublist List.filter_sublist).imp fun hb => of_decide_eq_true hb
  · rw [List.mem_filter, List.mem_filter, decide_eq_true_eq, decide_eq_true_eq, ← hstop, ← hlower, ← boundOk_ceiling]
    constructor
    · rintro ⟨hx, hge, hlt⟩
      obtain ⟨hin, hend, hshown⟩ := hitemDown x hx
      exact ⟨hcompleteUp x.1 x.2 hge hlt hshown (Or.inr hupEnd), hin, hend⟩
    · rintro ⟨hx, hin, hend⟩
      obtain ⟨hge, hlt, hshown⟩ := hitemUp x hx
      exact ⟨hcompleteDown x.1 x.2 hin hend hshown (Or.inr hdownEnd), hge, hlt⟩

end Scans

end Horton
