import Horton.Manifest.Basic
import Horton.Crc
import Horton.Lib.Reader
import Mathlib.Tactic.Ring

/-!
# The manifest format

The body of a manifest copy: its scalars, then every level with a count in front.  `decodeBody` is the exact inverse of
`encodeBody` (`inverts_decodeBody`): what it accepts is the encoding of a manifest of this shape.  A commit writes the body
of the manifest as its edit would leave it, and that manifest is one of this shape again when `checkEdit` accepts the edit.
-/

namespace Horton

open Reader

namespace Manifest

def encodeBound (k : Bytes) : Bytes := Bytes.leBytes 2 k.length ++ k

def encodeRef (t : TableRef) : Bytes :=
  Bytes.leBytes 4 t.id ++ Bytes.leBytes 8 t.firstBlock ++ Bytes.leBytes 4 t.blockCount ++
  encodeBound t.firstKey ++ encodeBound t.lastKey ++
  Bytes.leBytes 8 t.maxSeq ++ Bytes.leBytes 8 t.minSeq ++ Bytes.leBytes 4 t.entryCount ++ Bytes.leBytes 4 t.rdelBlocks ++
  Bytes.leBytes 4 t.nodeId ++ Bytes.leBytes 8 t.sealWall

/-- A level: its count, then its refs. -/
def encodeLevel (ts : List TableRef) : Bytes := Bytes.leBytes 4 ts.length ++ ts.flatMap encodeRef

def encodeBody (m : Manifest) : Bytes :=
  Bytes.leBytes 8 m.walHead ++ Bytes.leBytes 4 m.nextTableId ++ Bytes.leBytes 8 m.flushedSeq ++
  Bytes.leBytes 8 m.seqHigh ++ Bytes.leBytes 4 m.levels.length ++ m.levels.flatMap encodeLevel

/-- Writes the body of the manifest as `e` would leave it. -/
def writeBody (sh : Shape) (m : Manifest) (e : ManifestEdit) : Bytes :=
  Bytes.leBytes 8 (e.walHead.getD m.walHead) ++ Bytes.leBytes 4 (max m.nextTableId e.nextTableId) ++
  Bytes.leBytes 8 (max m.flushedSeq e.flushed) ++ Bytes.leBytes 8 (max (max m.seqHigh e.seqHigh) e.flushed) ++
  Bytes.leBytes 4 sh.LEVELS ++ (List.range sh.LEVELS).flatMap fun li => encodeLevel (m.viewLevel e li)

def decodeBound (sh : Shape) : Reader Bytes := do
  let n ← uint 2
  check (n ≤ sh.KEY_MAX)
  bytes n

def decodeTableref (sh : Shape) : Reader TableRef := do
  let id ← uint 4
  let firstBlock ← uint 8
  let blockCount ← uint 4
  let firstKey ← decodeBound sh
  let lastKey ← decodeBound sh
  let maxSeq ← uint 8
  let minSeq ← uint 8
  let entryCount ← uint 4
  let rdelBlocks ← uint 4
  let nodeId ← uint 4
  let sealWall ← uint 8
  return ⟨id, firstBlock, blockCount, firstKey, lastKey, maxSeq, minSeq, entryCount, rdelBlocks, nodeId, sealWall⟩

/-- The loop over the levels from `li` on, `n` of them, with `total` refs read before. -/
def decodeLevels (sh : Shape) : Nat → Nat → Nat → Reader (List (List TableRef))
  | 0, _, _ => pure []
  | n + 1, li, total => do
    let count ← uint 4
    -- Level 0 is capped at TABLES; the whole tree at the pool.
    check (!((li = 0 ∧ count > sh.TABLES) ∨ count > CAPACITY sh - total))
    let ts ← times (decodeTableref sh) count
    let rest ← decodeLevels sh n (li + 1) (total + count)
    return ts :: rest

/-- Parses a body; `recover_from` then sets `seq` from the block headers. -/
def decodeBody (sh : Shape) : Reader Manifest := do
  let walHead ← uint 8
  let nextTableId ← uint 4
  let flushedSeq ← uint 8
  let seqHigh ← uint 8
  let nlevels ← uint 4
  check (nlevels = sh.LEVELS)
  let levels ← decodeLevels sh sh.LEVELS 0 0
  return ⟨0, walHead, nextTableId, flushedSeq, seqHigh, levels⟩

/-! ### Manifests of a shape -/

/-- Levels that fit: level 0 within TABLES, all of them within the pool, `total` refs being there already. -/
def LevelsOk (sh : Shape) : Nat → Nat → List (List TableRef) → Prop
  | _, _, [] => True
  | li, total, l :: ls => (li = 0 → l.length ≤ sh.TABLES) ∧ total + l.length ≤ CAPACITY sh ∧
      (∀ t ∈ l, t.WF sh) ∧ LevelsOk sh (li + 1) (total + l.length) ls

structure WF (sh : Shape) (m : Manifest) : Prop where
  walHead_lt : m.walHead < 2 ^ 64
  nextTableId_lt : m.nextTableId < 2 ^ 32
  flushedSeq_lt : m.flushedSeq < 2 ^ 64
  seqHigh_lt : m.seqHigh < 2 ^ 64
  length_levels : m.levels.length = sh.LEVELS
  levels_ok : LevelsOk sh 0 0 m.levels

variable {sh : Shape}

theorem capacity_le (sh : Shape) : CAPACITY sh ≤ 64 := sh.assertSlots.2.2

theorem levels_le (sh : Shape) : sh.LEVELS ≤ 64 := by
  have h := sh.assertSlots
  calc sh.LEVELS = sh.LEVELS * 1 := (Nat.mul_one _).symm
    _ ≤ sh.LEVELS * sh.TABLES := Nat.mul_le_mul_left _ h.2.1
    _ ≤ 64 := h.2.2

/-! ### Decoding what was encoded -/

private theorem onSlice_check {c : Bool} {b : Bytes} {u : Unit} {t : Bytes} (h : (check c).onSlice b = some (u, t)) :
    c = true ∧ b = t := by
  cases c with
  | false => simp [check, onSlice] at h
  | true => exact ⟨rfl, (Prod.mk.inj (Option.some.inj h)).2⟩

@[simp] private theorem onSlice_check_true (b : Bytes) : (check true).onSlice b = some ((), b) := rfl

/-- The first step of a reader that succeeded. -/
private theorem onSlice_bind_some {α β : Type} {r : Reader α} {f : α → Reader β} {b : Bytes} {x : β × Bytes}
    (h : (r >>= f).onSlice b = some x) : ∃ a t, r.onSlice b = some (a, t) ∧ (f a).onSlice t = some x := by
  rw [onSlice_bind] at h
  obtain ⟨⟨a, t⟩, ha, hx⟩ := Option.bind_eq_some_iff.mp h
  exact ⟨a, t, ha, hx⟩

/-- The first step of a reader on an encoding. -/
private theorem onSlice_bind_read {α β : Type} {r : Reader α} {enc : α → Bytes} {ok : α → Prop} (h : Inverts r enc ok)
    (f : α → Reader β) {a : α} (ha : ok a) (t : Bytes) : (r >>= f).onSlice (enc a ++ t) = (f a).onSlice t := by
  rw [onSlice_bind, h.read a ha t, Option.bind_some]

theorem inverts_decodeBound :
    Inverts (decodeBound sh) encodeBound (·.length ≤ sh.KEY_MAX) where
  read k hk t := by
    have hmax := sh.assertKey.2
    have hlt : k.length < 256 ^ 2 := by omega
    rw [decodeBound, encodeBound, List.append_assoc, onSlice_bind_read (inverts_uint 2) _ hlt, onSlice_bind]
    simp only [hk, decide_true, onSlice_check_true, Option.bind_some]
    exact (inverts_bytes k.length).read k rfl t
  exact b k t h := by
    obtain ⟨n, t₁, h₁, h⟩ := onSlice_bind_some h
    obtain ⟨u, t₂, h₂, h₃⟩ := onSlice_bind_some h
    obtain ⟨hn, rfl⟩ := onSlice_check h₂
    obtain ⟨rfl, rfl⟩ := (inverts_bytes n).exact _ _ _ h₃
    obtain ⟨rfl, -⟩ := (inverts_uint 2).exact _ _ _ h₁
    exact ⟨by simp [encodeBound], by simpa using hn⟩

theorem inverts_decodeTableref : Inverts (decodeTableref sh) encodeRef (·.WF sh) where
  read r hr t := by
    simp only [encodeRef, List.append_assoc]
    rw [decodeTableref, onSlice_bind_read (inverts_uint 4) _ hr.id_lt,
      onSlice_bind_read (inverts_uint 8) _ hr.firstBlock_lt, onSlice_bind_read (inverts_uint 4) _ hr.blockCount_lt,
      onSlice_bind_read inverts_decodeBound _ hr.firstKey_le, onSlice_bind_read inverts_decodeBound _ hr.lastKey_le,
      onSlice_bind_read (inverts_uint 8) _ hr.maxSeq_lt,
      onSlice_bind_read (inverts_uint 8) _ hr.minSeq_lt, onSlice_bind_read (inverts_uint 4) _ hr.entryCount_lt,
      onSlice_bind_read (inverts_uint 4) _ hr.rdelBlocks_lt, onSlice_bind_read (inverts_uint 4) _ hr.nodeId_lt,
      onSlice_bind_read (inverts_uint 8) _ hr.sealWall_lt]
    rfl
  exact b r t h := by
    obtain ⟨id, t₁, h₁, h⟩ := onSlice_bind_some h
    obtain ⟨firstBlock, t₂, h₂, h⟩ := onSlice_bind_some h
    obtain ⟨blockCount, t₃, h₃, h⟩ := onSlice_bind_some h
    obtain ⟨firstKey, t₄, h₄, h⟩ := onSlice_bind_some h
    obtain ⟨lastKey, t₅, h₅, h⟩ := onSlice_bind_some h
    obtain ⟨maxSeq, t₆, h₆, h⟩ := onSlice_bind_some h
    obtain ⟨minSeq, t₇, h₇, h⟩ := onSlice_bind_some h
    obtain ⟨entryCount, t₈, h₈, h⟩ := onSlice_bind_some h
    obtain ⟨rdelBlocks, t₉, h₉, h⟩ := onSlice_bind_some h
    obtain ⟨nodeId, t₁₀, h₁₀, h⟩ := onSlice_bind_some h
    obtain ⟨sealWall, t₁₁, h₁₁, h⟩ := onSlice_bind_some h
    obtain ⟨rfl, rfl⟩ := Prod.mk.inj (Option.some.inj h)
    obtain ⟨rfl, w₁⟩ := (inverts_uint 4).exact _ _ _ h₁
    obtain ⟨rfl, w₂⟩ := (inverts_uint 8).exact _ _ _ h₂
    obtain ⟨rfl, w₃⟩ := (inverts_uint 4).exact _ _ _ h₃
    obtain ⟨rfl, w₄⟩ := inverts_decodeBound.exact _ _ _ h₄
    obtain ⟨rfl, w₅⟩ := inverts_decodeBound.exact _ _ _ h₅
    obtain ⟨rfl, w₆⟩ := (inverts_uint 8).exact _ _ _ h₆
    obtain ⟨rfl, w₇⟩ := (inverts_uint 8).exact _ _ _ h₇
    obtain ⟨rfl, w₈⟩ := (inverts_uint 4).exact _ _ _ h₈
    obtain ⟨rfl, w₉⟩ := (inverts_uint 4).exact _ _ _ h₉
    obtain ⟨rfl, w₁₀⟩ := (inverts_uint 4).exact _ _ _ h₁₀
    obtain ⟨rfl, w₁₁⟩ := (inverts_uint 8).exact _ _ _ h₁₁
    exact ⟨by simp [encodeRef], w₁, w₂, w₃, w₄, w₅, w₆, w₇, w₈, w₉, w₁₀, w₁₁⟩

theorem inverts_decodeLevels (n li : Nat) {total : Nat} (ht : total ≤ CAPACITY sh) : Inverts (decodeLevels sh n li total) (List.flatMap encodeLevel)
    fun ls => ls.length = n ∧ LevelsOk sh li total ls where
  read ls hls t := by
    obtain ⟨rfl, hok⟩ := hls
    clear ht
    induction ls generalizing li total with
    | nil => rfl
    | cons l ls ih =>
      obtain ⟨h0, hcap, hwf, hrest⟩ := hok
      have hcap64 := capacity_le sh
      have hlt : l.length < 256 ^ 4 := by omega
      have hcheck : (!decide ((li = 0 ∧ l.length > sh.TABLES) ∨ l.length > CAPACITY sh - total)) = true := by
        simp only [Bool.not_eq_true', decide_eq_false_iff_not]
        rintro (⟨h1, h2⟩ | h)
        · have := h0 h1; omega
        · omega
      simp only [List.flatMap_cons, encodeLevel, List.append_assoc]
      rw [List.length_cons, decodeLevels, onSlice_bind_read (inverts_uint 4) _ hlt, onSlice_bind, hcheck,
        onSlice_check_true, Option.bind_some, onSlice_bind_read (inverts_times inverts_decodeTableref _) _ ⟨rfl, hwf⟩,
        onSlice_bind, ih _ hrest]
      rfl
  exact b ls t h := by
    induction n generalizing li total b ls with
    | zero =>
      obtain ⟨rfl, rfl⟩ := Prod.mk.inj (Option.some.inj h)
      exact ⟨rfl, rfl, trivial⟩
    | succ n ih =>
      obtain ⟨count, t₁, h₁, h⟩ := onSlice_bind_some h
      obtain ⟨u, t₂, h₂, h⟩ := onSlice_bind_some h
      obtain ⟨ts, t₃, h₃, h⟩ := onSlice_bind_some h
      obtain ⟨rest, t₄, h₄, h⟩ := onSlice_bind_some h
      obtain ⟨rfl, rfl⟩ := Prod.mk.inj (Option.some.inj h)
      obtain ⟨hc, rfl⟩ := onSlice_check h₂
      obtain ⟨rfl, -⟩ := (inverts_uint 4).exact _ _ _ h₁
      obtain ⟨rfl, rfl, hwf⟩ := (inverts_times inverts_decodeTableref count).exact _ _ _ h₃
      simp only [Bool.not_eq_true', decide_eq_false_iff_not, not_or, not_and, not_lt] at hc
      have htot : total + ts.length ≤ CAPACITY sh := by omega
      obtain ⟨rfl, rfl, hok⟩ := ih _ htot _ _ h₄
      exact ⟨by simp [encodeLevel], rfl, hc.1, htot, hwf, hok⟩

theorem inverts_decodeBody : Inverts (decodeBody sh) encodeBody fun m => m.seq = 0 ∧ m.WF sh where
  read m hm t := by
    obtain ⟨hseq, hm⟩ := hm
    have hlev : m.levels.length < 256 ^ 4 := by
      rw [hm.length_levels]
      have := levels_le sh
      omega
    simp only [encodeBody, List.append_assoc]
    rw [decodeBody, onSlice_bind_read (inverts_uint 8) _ hm.walHead_lt,
      onSlice_bind_read (inverts_uint 4) _ hm.nextTableId_lt, onSlice_bind_read (inverts_uint 8) _ hm.flushedSeq_lt,
      onSlice_bind_read (inverts_uint 8) _ hm.seqHigh_lt, onSlice_bind_read (inverts_uint 4) _ hlev, onSlice_bind,
      hm.length_levels, decide_eq_true rfl, onSlice_check_true, Option.bind_some,
      onSlice_bind_read (inverts_decodeLevels _ _ (Nat.zero_le _)) _ ⟨hm.length_levels, hm.levels_ok⟩, onSlice_pure, ← hseq]
  exact b m t h := by
    obtain ⟨walHead, t₁, h₁, h⟩ := onSlice_bind_some h
    obtain ⟨nextTableId, t₂, h₂, h⟩ := onSlice_bind_some h
    obtain ⟨flushedSeq, t₃, h₃, h⟩ := onSlice_bind_some h
    obtain ⟨seqHigh, t₄, h₄, h⟩ := onSlice_bind_some h
    obtain ⟨nlevels, t₅, h₅, h⟩ := onSlice_bind_some h
    obtain ⟨u, t₆, h₆, h⟩ := onSlice_bind_some h
    obtain ⟨levels, t₇, h₇, h⟩ := onSlice_bind_some h
    obtain ⟨rfl, rfl⟩ := Prod.mk.inj (Option.some.inj h)
    obtain ⟨hc, rfl⟩ := onSlice_check h₆
    obtain ⟨rfl, w₁⟩ := (inverts_uint 8).exact _ _ _ h₁
    obtain ⟨rfl, w₂⟩ := (inverts_uint 4).exact _ _ _ h₂
    obtain ⟨rfl, w₃⟩ := (inverts_uint 8).exact _ _ _ h₃
    obtain ⟨rfl, w₄⟩ := (inverts_uint 8).exact _ _ _ h₄
    obtain ⟨rfl, -⟩ := (inverts_uint 4).exact _ _ _ h₅
    obtain ⟨rfl, hlen, hok⟩ := (inverts_decodeLevels _ _ (Nat.zero_le _)).exact _ _ _ h₇
    obtain rfl : nlevels = sh.LEVELS := by simpa using hc
    exact ⟨by simp [encodeBody, hlen], rfl, w₁, w₂, w₃, w₄, hlen, hok⟩

/-- The body does not hold `seq`. -/
theorem decodeBody_encodeBody {m : Manifest} (hm : m.WF sh) :
    (decodeBody sh).onSlice (encodeBody m) = some ({ m with seq := 0 }, []) := by
  have hread := (@inverts_decodeBody sh).read { m with seq := 0 }
    ⟨rfl, hm.walHead_lt, hm.nextTableId_lt, hm.flushedSeq_lt, hm.seqHigh_lt, hm.length_levels, hm.levels_ok⟩ []
  rw [List.append_nil] at hread
  exact hread

/-! ### What a commit writes -/

theorem writeBody_eq (m : Manifest) (e : ManifestEdit) : writeBody sh m e = encodeBody (m.view sh e) := by
  simp [writeBody, encodeBody, view, List.flatMap_map]

theorem length_encodeRef (t : TableRef) : (encodeRef t).length = 56 + t.firstKey.length + t.lastKey.length := by
  simp only [encodeRef, encodeBound, List.length_append, Bytes.length_leBytes]
  omega

private theorem length_flatMap_encodeRef (ts : List TableRef) :
    (ts.flatMap encodeRef).length = (ts.map fun t => 56 + t.firstKey.length + t.lastKey.length).sum := by
  simp [List.length_flatMap, length_encodeRef]

theorem length_writeBody (sh : Shape) (m : Manifest) (e : ManifestEdit) : (writeBody sh m e).length = m.viewBodyLen sh e := by
  have hlevels : ∀ ls : List Nat, (ls.flatMap fun li => encodeLevel (m.viewLevel e li)).length =
      4 * ls.length + (ls.map fun li =>
        ((m.viewLevel e li).map fun t => 56 + t.firstKey.length + t.lastKey.length).sum).sum := by
    intro ls
    induction ls with
    | nil => rfl
    | cons li ls ih =>
      rw [List.flatMap_cons, List.length_append, ih, encodeLevel, List.length_append, Bytes.length_leBytes,
        length_flatMap_encodeRef, List.map_cons, List.sum_cons, List.length_cons]
      omega
  simp only [writeBody, viewBodyLen, List.length_append, Bytes.length_leBytes, hlevels, List.length_range]
  omega

/-! ### The edited manifest has the same shape -/

theorem levelsOk_iff {li total : Nat} {ls : List (List TableRef)} (ht : total ≤ CAPACITY sh) :
    LevelsOk sh li total ls ↔ (li = 0 → (ls.headD []).length ≤ sh.TABLES) ∧
      total + (ls.map List.length).sum ≤ CAPACITY sh ∧ ∀ l ∈ ls, ∀ t ∈ l, t.WF sh := by
  induction ls generalizing li total with
  | nil => simp [LevelsOk, ht]
  | cons l ls ih =>
    simp only [LevelsOk, List.headD_cons, List.map_cons, List.sum_cons, List.mem_cons, forall_eq_or_imp]
    constructor
    · rintro ⟨h0, hcap, hwf, hrest⟩
      obtain ⟨-, hsum, hall⟩ := (ih hcap).mp hrest
      exact ⟨h0, by omega, hwf, hall⟩
    · rintro ⟨h0, hsum, hwf, hall⟩
      exact ⟨h0, by omega, hwf, (ih (by omega)).mpr ⟨by simp, by omega, hall⟩⟩

private theorem length_viewFrom (e : ManifestEdit) (li pos : Nat) (ts : List TableRef) (pending : Option TableRef) :
    (viewFrom e li pos ts pending).length =
      (List.range' pos ts.length).countP (fun p => !bit e.removed p) + pending.toList.length := by
  induction ts generalizing pos pending with
  | nil => simp [viewFrom]
  | cons t ts ih =>
    rw [viewFrom, List.length_cons, List.range'_succ, List.countP_cons]
    split
    · rename_i hb
      rw [ih]
      simp [hb]
    · rename_i hb
      cases pending with
      | none => simp [ih, hb]
      | some a =>
        dsimp only
        split <;> simp [ih, hb]

private theorem mem_viewFrom {e : ManifestEdit} {li pos : Nat} {ts : List TableRef} {pending : Option TableRef}
    {t : TableRef} (h : t ∈ viewFrom e li pos ts pending) : t ∈ pending ∨ ∃ u ∈ ts, ∃ p, t = viewRef e p u := by
  induction ts generalizing pos pending with
  | nil => exact Or.inl (by simpa [viewFrom] using h)
  | cons u ts ih =>
    have hlift : ∀ {pen : Option TableRef} {q : Nat}, t ∈ viewFrom e li q ts pen →
        t ∈ pen ∨ ∃ v ∈ u :: ts, ∃ p, t = viewRef e p v := by
      intro pen q hq
      rcases ih hq with hp | ⟨v, hv, p, hp⟩
      · exact Or.inl hp
      · exact Or.inr ⟨v, List.mem_cons_of_mem _ hv, p, hp⟩
    have hhere : t = viewRef e pos u → ∃ v ∈ u :: ts, ∃ p, t = viewRef e p v :=
      fun heq => ⟨u, List.mem_cons_self, pos, heq⟩
    rw [viewFrom] at h
    split at h
    · exact hlift h
    · cases pending with
      | none =>
        rcases List.mem_cons.mp h with heq | h
        · exact Or.inr (hhere heq)
        · exact hlift h
      | some a =>
        dsimp only at h
        split at h
        · rcases List.mem_cons.mp h with rfl | h
          · exact Or.inl rfl
          · rcases List.mem_cons.mp h with heq | h
            · exact Or.inr (hhere heq)
            · rcases hlift h with hn | hr
              · simp at hn
              · exact Or.inr hr
        · rcases List.mem_cons.mp h with heq | h
          · exact Or.inr (hhere heq)
          · exact hlift h

private theorem viewRef_wf {e : ManifestEdit} {t : TableRef} (he : e.WF sh) (ht : t.WF sh) (pos : Nat) :
    (viewRef e pos t).WF sh := by
  have hn : (if bit e.narrowed pos then { t with firstKey := e.narrowTo } else t).WF sh := by
    split
    · exact { ht with firstKey_le := he.narrowTo_le }
    · exact ht
  unfold viewRef
  generalize (if bit e.narrowed pos then { t with firstKey := e.narrowTo } else t) = u at hn
  dsimp only
  split
  · rename_i id nodeId sealWall hs
    obtain ⟨h1, h2⟩ := he.stamped_lt _ hs
    split
    · exact { hn with nodeId_lt := h1, sealWall_lt := h2 }
    · exact hn
  · exact hn

theorem start_succ (m : Manifest) (n : Nat) : m.start (n + 1) = m.start n + (m.level n).length := by
  rw [start, start, level, List.take_add_one, List.map_append, List.sum_append]
  rcases h : m.levels[n]? with _ | l <;> simp [List.getD_eq_getElem?_getD, h]

/-- The pool positions of the first `n` levels are those below the start of level `n`. -/
private theorem sum_countP_levels (m : Manifest) (p : Nat → Bool) (n : Nat) :
    ((List.range n).map fun li => (List.range' (m.start li) (m.level li).length).countP p).sum =
      (List.range (m.start n)).countP p := by
  induction n with
  | zero => simp [start]
  | succ n ih =>
    rw [List.range_succ, List.map_append, List.sum_append, ih, start_succ, List.range_eq_range', List.range_eq_range',
      List.range'_append_1.symm, List.countP_append]
    simp

private theorem sum_added (e : ManifestEdit) (n : Nat) :
    ((List.range n).map fun li => ((e.added.filter (·.1 = li)).map (·.2)).toList.length).sum =
      match e.added with
      | some (level, _) => if level < n then 1 else 0
      | none => 0 := by
  rcases e.added with _ | ⟨level, a⟩
  · simp
  · induction n with
    | zero => simp
    | succ n ih =>
      rw [List.range_succ, List.map_append, List.sum_append, ih]
      by_cases h1 : level < n
      · simp [h1, show ¬ level = n by omega, show level < n + 1 by omega]
      · by_cases h2 : level = n
        · simp [h2]
        · simp [h1, h2, show ¬ level < n + 1 by omega]

private theorem testBit_maskBelow {n i : Nat} (hi : i < 64) : (maskBelow n).testBit i = decide (i < n) := by
  unfold maskBelow
  split
  · rw [U64_MAX, show 0xFFFFFFFFFFFFFFFF = 2 ^ 64 - 1 from rfl, Nat.testBit_two_pow_sub_one]
    simp [hi, show i < n by omega]
  · rw [Nat.testBit_two_pow_sub_one]

private theorem countP_range_add {p : Nat → Bool} {n k : Nat} (h : ∀ i, n ≤ i → i < n + k → p i = false) :
    (List.range (n + k)).countP p = (List.range n).countP p := by
  induction k with
  | zero => rfl
  | succ k ih =>
    rw [← Nat.add_assoc, List.range_succ, List.countP_append, ih fun i h1 h2 => h i h1 (by omega)]
    simp [h (n + k) (by omega) (by omega)]

private theorem countP_range_congr {p q : Nat → Bool} {n : Nat} (h : ∀ i < n, p i = q i) :
    (List.range n).countP p = (List.range n).countP q :=
  List.countP_congr fun i hi => by rw [h i (List.mem_range.mp hi)]

/-- A mask without bits from `n` on has as many ones as there are positions below `n` in it. -/
private theorem countOnes_eq {mask n : Nat} (hn : n ≤ 64) (h : ∀ i, n ≤ i → i < 64 → mask.testBit i = false) :
    countOnes mask = (List.range n).countP (bit mask) := by
  obtain ⟨k, hk⟩ := Nat.exists_eq_add_of_le hn
  rw [countOnes, hk, countP_range_add fun i h1 h2 => h i h1 (by omega)]
  exact countP_range_congr fun i hi => by simp [bit, show i < 64 by omega]

private theorem countP_not_bit (mask n : Nat) :
    (List.range n).countP (fun p => !bit mask p) + (List.range n).countP (bit mask) = n := by
  have h := List.length_eq_countP_add_countP (bit mask) (l := List.range n)
  simp only [List.length_range, Bool.not_eq_true] at h
  have hneg : (List.range n).countP (fun p => !bit mask p) = (List.range n).countP (fun a => decide (bit mask a = false)) :=
    countP_range_congr fun i _ => by cases bit mask i <;> rfl
  omega

/-- What an accepted edit may do: it removes live refs only, and its added ref has room. -/
structure Accepted (sh : Shape) (m : Manifest) (e : ManifestEdit) : Prop where
  removed_live : ∀ i, m.live ≤ i → i < 64 → e.removed.testBit i = false
  added_room : ∀ a ∈ e.added, a.1 < sh.LEVELS ∧ m.live - countOnes e.removed < CAPACITY sh ∧
    (a.1 = 0 → m.l0.length - countOnes (e.removed &&& maskBelow m.l0.length) < sh.TABLES)

theorem accepted_of_checkEdit {m : Manifest} {e : ManifestEdit} (h : m.checkEdit sh e = .ok ()) : Accepted sh m e := by
  unfold checkEdit at h
  split at h
  · simp at h
  · rename_i hmask
    refine ⟨?_, ?_⟩
    · intro i hi h64
      have hbit := congrArg (fun n => n.testBit i) (not_not.mp hmask)
      simp only [Nat.testBit_and, Nat.testBit_or, Nat.testBit_xor, testBit_maskBelow h64, Nat.zero_testBit] at hbit
      have hmax : U64_MAX.testBit i = true := by
        rw [U64_MAX, show 0xFFFFFFFFFFFFFFFF = 2 ^ 64 - 1 from rfl, Nat.testBit_two_pow_sub_one]
        simp [h64]
      simp only [hmax, show ¬ i < m.live by omega, decide_false, Bool.xor_false, Bool.and_true, Bool.or_eq_false_iff] at hbit
      exact hbit.1
    · rintro ⟨level, a⟩ ha
      rw [Option.mem_def.mp ha] at h
      dsimp only at h
      split at h
      · simp at h
      · split at h
        · simp at h
        · split at h
          · simp at h
          · exact ⟨by omega, by omega, fun h0 => by omega⟩

theorem wf_live {m : Manifest} (hm : m.WF sh) : m.l0.length ≤ sh.TABLES ∧ m.live ≤ CAPACITY sh ∧
    ∀ t ∈ m.tables, t.WF sh := by
  obtain ⟨h0, hsum, hall⟩ := (levelsOk_iff (Nat.zero_le _)).mp hm.levels_ok
  refine ⟨?_, by simpa [live] using hsum, ?_⟩
  · have := h0 rfl
    rcases hl : m.levels with _ | ⟨l, ls⟩ <;> simp_all [l0, level]
  · intro t ht
    obtain ⟨l, hl, ht⟩ := List.mem_flatten.mp ht
    exact hall l hl t ht

theorem WF.maxSeq_lt {m : Manifest} (hm : m.WF sh) : m.maxSeq < 2 ^ 64 := by
  have key : ∀ (ns : List Nat) (a : Nat), a < 2 ^ 64 → (∀ n ∈ ns, n < 2 ^ 64) → ns.foldl max a < 2 ^ 64 := by
    intro ns
    induction ns with
    | nil => exact fun a ha _ => ha
    | cons n ns ih => exact fun a ha hn => ih _ (max_lt ha (hn n (by simp))) fun x hx => hn x (by simp [hx])
  refine key _ 0 (by omega) ?_
  intro n hn
  obtain ⟨t, ht, rfl⟩ := List.mem_map.mp hn
  exact ((wf_live hm).2.2 t ht).maxSeq_lt

/-- A new manifest, wherever its log begins. -/
theorem wf_new {b : Nat} (hb : b < 2 ^ 64) : ({ new sh with walHead := b } : Manifest).WF sh := by
  refine ⟨hb, by show 0 < 2 ^ 32; omega, by show 0 < 2 ^ 64; omega, by show 0 < 2 ^ 64; omega, List.length_replicate, ?_⟩
  refine (levelsOk_iff (Nat.zero_le _)).mpr ⟨fun _ => ?_, ?_, ?_⟩
  · show ((List.replicate sh.LEVELS []).headD []).length ≤ sh.TABLES
    cases sh.LEVELS <;> simp [List.replicate]
  · show 0 + ((List.replicate sh.LEVELS ([] : List TableRef)).map List.length).sum ≤ CAPACITY sh
    simp
  · intro l hl t ht
    obtain rfl := List.eq_of_mem_replicate hl
    cases ht

private theorem sum_map_add (f g : Nat → Nat) (l : List Nat) :
    (l.map fun i => f i + g i).sum = (l.map f).sum + (l.map g).sum := by
  induction l with
  | nil => rfl
  | cons a l ih => simp [ih]; omega

theorem length_viewLevel (m : Manifest) (e : ManifestEdit) (li : Nat) : (m.viewLevel e li).length =
    (List.range' (m.start li) (m.level li).length).countP (fun p => !bit e.removed p) +
      ((e.added.filter (·.1 = li)).map (·.2)).toList.length := length_viewFrom ..

/-- The refs that the edit leaves: those it does not remove, and the one it adds. -/
theorem live_view {m : Manifest} (hm : m.WF sh) (e : ManifestEdit) : (m.view sh e).live =
    (List.range m.live).countP (fun p => !bit e.removed p) + (match e.added with
      | some (level, _) => if level < sh.LEVELS then 1 else 0
      | none => 0) := by
  have hstart : m.start sh.LEVELS = m.live := by
    rw [start, live, List.take_of_length_le (by rw [hm.length_levels])]
  rw [← sum_added, ← hstart, ← sum_countP_levels, ← sum_map_add]
  simp only [live, view, List.map_map]
  exact congrArg List.sum (List.map_congr_left fun li _ => length_viewLevel m e li)

theorem view_wf {m : Manifest} {e : ManifestEdit} (hm : m.WF sh) (he : e.WF sh) (hc : m.checkEdit sh e = .ok ()) :
    (m.view sh e).WF sh := by
  obtain ⟨hl0, hlive, htab⟩ := wf_live hm
  have hacc := accepted_of_checkEdit hc
  have hcap := capacity_le sh
  refine ⟨?_, ?_, ?_, ?_, by simp [view], (levelsOk_iff (Nat.zero_le _)).mpr ⟨fun _ => ?_, ?_, ?_⟩⟩
  · show e.walHead.getD m.walHead < 2 ^ 64
    rcases hh : e.walHead with _ | h
    · exact hm.walHead_lt
    · exact he.walHead_lt h (by simp [hh])
  · exact max_lt hm.nextTableId_lt he.nextTableId_lt
  · exact max_lt hm.flushedSeq_lt he.flushed_lt
  · exact max_lt (max_lt hm.seqHigh_lt he.seqHigh_lt) he.flushed_lt
  · have hlev := sh.assertSlots.1
    obtain ⟨n, hn⟩ : ∃ n, sh.LEVELS = n + 1 := ⟨sh.LEVELS - 1, by omega⟩
    have hhead : ((m.view sh e).levels.headD []) = m.viewLevel e 0 := by
      simp [view, hn, List.range_succ_eq_map]
    have hcount := countP_not_bit e.removed m.l0.length
    have hmask : countOnes (e.removed &&& maskBelow m.l0.length) = (List.range m.l0.length).countP (bit e.removed) := by
      rw [countOnes_eq (show m.l0.length ≤ 64 by have := sh.assertJob; omega)
        fun i h1 h2 => by simp [Nat.testBit_and, testBit_maskBelow h2, show ¬ i < m.l0.length by omega]]
      refine countP_range_congr fun i hi => ?_
      have h64 : i < 64 := by have := sh.assertJob; omega
      simp [bit, Nat.testBit_and, testBit_maskBelow h64, hi]
    rw [hhead, length_viewLevel, show m.start 0 = 0 from rfl, ← List.range_eq_range', show m.level 0 = m.l0 from rfl]
    rcases ha : e.added with _ | ⟨level, a⟩
    · simp only [Option.filter_none, Option.map_none, Option.toList_none, List.length_nil]
      omega
    · obtain ⟨-, -, hroom⟩ := hacc.added_room _ ha
      by_cases hlevel : level = 0
      · have := hroom hlevel
        simp only [hlevel, Option.filter_some, decide_true, if_true, Option.map_some, Option.toList_some,
          List.length_singleton]
        omega
      · simp only [Option.filter_some, hlevel, decide_false, Bool.false_eq_true, if_false, Option.map_none,
          Option.toList_none, List.length_nil]
        omega
  · have hsum := live_view hm e
    rw [live] at hsum
    have hcount := countP_not_bit e.removed m.live
    have hones := countOnes_eq (by omega) hacc.removed_live
    rw [Nat.zero_add, hsum]
    rcases ha : e.added with _ | ⟨level, a⟩
    · dsimp only
      omega
    · obtain ⟨hlt, hroom, -⟩ := hacc.added_room _ ha
      dsimp only
      rw [if_pos hlt]
      omega
  · intro l hl t ht
    simp only [view, List.mem_map, List.mem_range] at hl
    obtain ⟨li, -, rfl⟩ := hl
    rcases mem_viewFrom ht with hp | ⟨u, hu, p, rfl⟩
    · simp only [Option.mem_def, Option.map_eq_some_iff, Option.filter_eq_some_iff] at hp
      obtain ⟨a, ⟨ha, -⟩, rfl⟩ := hp
      exact he.added_wf a ha
    · refine viewRef_wf he (htab u ?_) p
      simp only [level] at hu
      rcases hg : m.levels[li]? with _ | l
      · simp [List.getD_eq_getElem?_getD, hg] at hu
      · simp only [List.getD_eq_getElem?_getD, hg, Option.getD_some] at hu
        exact List.mem_flatten.mpr ⟨l, List.mem_of_getElem? hg, hu⟩

end Manifest

end Horton
