import Horton.Lib.Packing
import Horton.Sstable.Extent
import Horton.Sstable.Layout

/-!
# The range-tombstone section

`RdelWriter` packs tombstones greedily, as `TableWriter` packs entries: `Staged` ties its state to the packing, and every
step goes through under a condition on the packing or is stopped by the device.  The plan of a section counts the blocks
of the same packing (`planRdelBlocks_eq`).
-/

namespace Horton

open BlockDev

namespace Sstable

/-- The tombstones of a block, one behind the other. -/
def encodeRdels (b : List RdelEntry) : Bytes := b.flatMap encodeRdel

/-- The packing rule of the section. -/
def fitsRdel (sh : Shape) (b : List RdelEntry) (r : RdelEntry) : Bool :=
  decide ((encodeRdels b).length + (encodeRdel r).length + RDEL_TRAILER ≤ sh.BLOCK)

variable {sh : Shape}

theorem encodeRdels_concat (b : List RdelEntry) (r : RdelEntry) : encodeRdels (b ++ [r]) = encodeRdels b ++ encodeRdel r := by
  simp [encodeRdels]

theorem encodeRdel_pos (r : RdelEntry) : 0 < (encodeRdel r).length := by
  rw [RdelWriter.length_encodeRdel, rdelEntryLen]
  omega

theorem fitsRdel_nil {b : List RdelEntry} {r : RdelEntry} (h : fitsRdel sh b r = true) : fitsRdel sh [] r = true := by
  unfold fitsRdel at h ⊢
  rw [decide_eq_true_iff] at h ⊢
  simp only [encodeRdels, List.flatMap_nil, List.length_nil] at h ⊢
  omega

end Sstable

open Sstable

namespace RdelWriter

variable {sh : Shape} {base limit : Nat} {p : Packing RdelEntry} {w : RdelWriter} {d : Device}
  {f : Nat → Bytes}

/-- The writer has packed its tombstones as `p`. -/
structure Staged (base limit : Nat) (p : Packing RdelEntry) (w : RdelWriter) : Prop where
  base_eq : w.base = base
  limit_eq : w.limit = limit
  buf_eq : w.buf = encodeRdels p.current
  count_eq : w.count = p.current.length
  blocks_eq : w.blocks = p.closed.length

/-- The blocks of the section are on the device; `f` are the blocks from before it was begun. -/
structure Written (sh : Shape) (base : Nat) (f : Nat → Bytes) (bs : List (List RdelEntry)) (d : Device) : Prop where
  block : ∀ i b, bs[i]? = some b → sealRdel sh (encodeRdels b) b.length = .ok (d.blocks (base + i))
  frame : ∀ j < base, d.blocks j = f j

/-- The open block can be sealed. -/
def Sealable (base limit : Nat) (p : Packing RdelEntry) : Prop :=
  p.closed.length < limit ∧ base + p.closed.length ≤ U64_MAX ∧ p.current.length ≤ U16_MAX

theorem sealBlock_delivers (h : Staged base limit p w) (hd : Written sh base f p.closed d) :
    (sealBlock sh).wp (Prog.Delivers d (Sealable base limit p) fun _ w' d' => Sealable base limit p ∧
      Staged base limit ⟨p.closed ++ [p.current], []⟩ w' ∧ Written sh base f (p.closed ++ [p.current]) d') w d := by
  have hbase := h.base_eq
  have hlimit := h.limit_eq
  have hblocks := h.blocks_eq
  have hcount := h.count_eq
  rw [sealBlock, Prog.wp_bind, Prog.wp_get, Prog.andThen_ok]
  split
  · refine Prog.delivers_throw fun hs => ?_
    have := hs.1
    omega
  split
  · refine Prog.delivers_throw fun hs => ?_
    have := hs.2.1
    omega
  rename_i hlim hid
  rw [Prog.wp_bind]
  cases hseal : sealRdel sh w.buf w.count with
  | error e =>
    intro _ hs
    unfold sealRdel at hseal
    rw [if_neg (by have := hs.2.2; omega)] at hseal
    cases hseal
  | ok block =>
    have hsmall : w.count ≤ U16_MAX := by
      by_contra hc
      rw [sealRdel, if_pos (by omega)] at hseal
      cases hseal
    rw [Prog.wp_ofExcept_ok, Prog.andThen_ok]
    refine Prog.delivers_bind (Prog.delivers_writeBlock _ _ _) (fun _ => trivial) ?_
    rintro _ w' d' ⟨rfl, rfl⟩
    refine Prog.delivers_modify ⟨⟨by omega, by omega, by omega⟩, ⟨hbase, hlimit, rfl, rfl, by simp [hblocks]⟩, ?_⟩
    rw [h.buf_eq, hcount] at hseal
    rw [hbase, hblocks]
    refine ⟨fun i b hi => ?_, fun j hj => ?_⟩
    swap
    · rw [Device.advance_blocks, Device.put_blocks_ne _ _ _ (by omega)]
      exact hd.frame j hj
    rw [Device.advance_blocks]
    by_cases hlt : i < p.closed.length
    · rw [List.getElem?_append_left hlt] at hi
      rw [Device.put_blocks_ne _ _ _ (by omega)]
      exact hd.block i b hi
    · rw [List.getElem?_append_right (by omega)] at hi
      have hi0 : i = p.closed.length := by
        have := (List.getElem?_eq_some_iff.mp hi).1
        rw [List.length_singleton] at this
        omega
      subst hi0
      simp only [Nat.sub_self, List.getElem?_cons_zero, Option.some.injEq] at hi
      rw [Device.put_blocks_same, ← hi]
      exact hseal

/-- The bounds fit their fields and the tombstone a block; an open block it does not fit can be sealed. -/
structure Pushable (sh : Shape) (base limit : Nat) (p : Packing RdelEntry) (r : RdelEntry) : Prop where
  start_le : r.start.length ≤ U16_MAX
  stop_le : r.stop.length ≤ U16_MAX
  fits_nil : fitsRdel sh [] r = true
  sealable : fitsRdel sh p.current r = false → Sealable base limit p

theorem push_delivers {r : RdelEntry} (h : Staged base limit p w) (hd : Written sh base f p.closed d) :
    (push sh r).wp (Prog.Delivers d (Pushable sh base limit p r) fun _ w' d' => Pushable sh base limit p r ∧
      Staged base limit (p.push (fitsRdel sh) r) w' ∧ Written sh base f (p.push (fitsRdel sh) r).closed d') w d := by
  have hlen := length_encodeRdel r
  have hbuf := h.buf_eq
  rw [push]
  split
  · refine Prog.delivers_throw fun hp => ?_
    have := hp.start_le
    omega
  split
  · refine Prog.delivers_throw fun hp => ?_
    have := hp.stop_le
    omega
  rename_i hstart hstop
  dsimp only
  have hnil : fitsRdel sh [] r = true ↔ rdelEntryLen r.start.length r.stop.length + RDEL_TRAILER ≤ sh.BLOCK := by
    simp [fitsRdel, encodeRdels, hlen]
  split
  · rename_i hlarge
    refine Prog.delivers_throw fun hp => ?_
    have := hnil.mp hp.fits_nil
    omega
  rename_i hsmall
  have hfitnil := hnil.mpr (by omega)
  have hfit : fitsRdel sh p.current r = true ↔
      w.buf.length + rdelEntryLen r.start.length r.stop.length + RDEL_TRAILER ≤ sh.BLOCK := by
    simp [fitsRdel, hbuf, hlen]
  rw [Prog.wp_bind, Prog.wp_get, Prog.andThen_ok]
  split
  · rename_i hfull
    have hfull' : fitsRdel sh p.current r = false := by
      rw [← Bool.not_eq_true, hfit]
      omega
    refine Prog.delivers_bind (sealBlock_delivers h hd) (fun hp => hp.sealable hfull') ?_
    rintro _ w' d' ⟨hs, h', hd'⟩
    refine Prog.delivers_modify ⟨⟨by omega, by omega, hfitnil, fun _ => hs⟩, ?_⟩
    rw [Packing.push_full hfull']
    refine ⟨⟨h'.base_eq, h'.limit_eq, ?_, ?_, h'.blocks_eq⟩, hd'⟩
    · show w'.buf ++ encodeRdel r = _
      rw [h'.buf_eq]
      simp [encodeRdels]
    · show w'.count + 1 = _
      rw [h'.count_eq]
      rfl
  · rename_i hroom
    have hfit' := hfit.mpr (by omega)
    refine Prog.delivers_modify ⟨⟨by omega, by omega, hfitnil, fun hc => absurd (hfit'.symm.trans hc) (by simp)⟩, ?_⟩
    rw [Packing.push_fits hfit']
    refine ⟨⟨h.base_eq, h.limit_eq, ?_, ?_, h.blocks_eq⟩, hd⟩
    · show w.buf ++ encodeRdel r = _
      rw [hbuf, encodeRdels_concat]
    · show w.count + 1 = _
      rw [h.count_eq]
      simp

/-- Tombstones that can be pushed one after the other. -/
def PushableAll (sh : Shape) (base limit : Nat) : Packing RdelEntry → List RdelEntry → Prop
  | _, [] => True
  | p, r :: rs => Pushable sh base limit p r ∧ PushableAll sh base limit (p.push (fitsRdel sh) r) rs

theorem pushRdels_delivers (rs : List RdelEntry) (h : Staged base limit p w) (hd : Written sh base f p.closed d) :
    (pushRdels sh rs).wp (Prog.Delivers d (PushableAll sh base limit p rs) fun _ w' d' => PushableAll sh base limit p rs ∧
      Staged base limit (rs.foldl (Packing.push (fitsRdel sh)) p) w' ∧
      Written sh base f (rs.foldl (Packing.push (fitsRdel sh)) p).closed d') w d := by
  induction rs generalizing p w d with
  | nil => exact Prog.delivers_pure ⟨trivial, h, hd⟩
  | cons r rs ih =>
    refine Prog.delivers_bind (push_delivers h hd) (fun hp => hp.1) ?_
    rintro _ w' d' ⟨hp, h', hd'⟩
    refine Prog.delivers_mono (ih h' hd') (fun hp => hp.2) ?_
    rintro _ w'' d'' ⟨hps, h'', hd''⟩
    exact ⟨⟨hp, hps⟩, h'', hd''⟩

/-- The open block, if any, can be sealed. -/
def TailOk (base limit : Nat) (p : Packing RdelEntry) : Prop := p.current ≠ [] → Sealable base limit p

theorem finish_delivers (h : Staged base limit p w) (hd : Written sh base f p.closed d) :
    (finish sh).wp (Prog.Delivers d (TailOk base limit p) fun n _ d' => TailOk base limit p ∧ n = p.bins.length ∧
      Written sh base f p.bins d') w d := by
  rw [finish, Prog.wp_bind, Prog.wp_get, Prog.andThen_ok]
  split
  · rename_i hpos
    have hne : p.current ≠ [] := by
      intro hc
      rw [h.count_eq, hc] at hpos
      exact absurd hpos (by simp)
    have hbins : p.bins = p.closed ++ [p.current] := by rw [Packing.bins, if_neg hne]
    rw [hbins]
    refine Prog.delivers_bind (sealBlock_delivers h hd) (fun ht => ht hne) ?_
    rintro _ w' d' ⟨hs, h', hd'⟩
    exact Prog.delivers_pure ⟨fun _ => hs, h'.blocks_eq, hd'⟩
  · rename_i hpos
    have hnil : p.current = [] := by
      rw [h.count_eq] at hpos
      exact List.length_eq_zero_iff.mp (by omega)
    rw [Packing.bins, if_pos hnil]
    exact Prog.delivers_pure ⟨fun hc => absurd hnil hc, h.blocks_eq, hd⟩

end RdelWriter

namespace Sstable

variable {sh : Shape} {base : Nat} {d : Device}

/-- The section can be written at `base`. -/
def RdelsOk (sh : Shape) (base : Nat) (rs : List RdelEntry) : Prop :=
  RdelWriter.PushableAll sh base U32_MAX Packing.empty rs ∧
    RdelWriter.TailOk base U32_MAX (Packing.pack (fitsRdel sh) rs)

/-- Blocks of a section, however the device behaves before and after. -/
theorem writeRdelBlocks_delivers {σ : Type} {s : σ} (rs : List RdelEntry) :
    (writeRdelBlocks sh base rs).wp (Prog.Delivers d (RdelsOk sh base rs) fun n s' d' => s' = s ∧ RdelsOk sh base rs ∧
      n = (Packing.pack (fitsRdel sh) rs).bins.length ∧
      RdelWriter.Written sh base d.blocks (Packing.pack (fitsRdel sh) rs).bins d') s d := by
  have hnew : RdelWriter.Staged base U32_MAX Packing.empty (RdelWriter.new base) := ⟨rfl, rfl, rfl, rfl, rfl⟩
  have hd : RdelWriter.Written sh base d.blocks [] d := ⟨fun i b hi => absurd hi (by simp), fun _ _ => rfl⟩
  have hlocal : (do
      pushRdels sh rs
      RdelWriter.finish sh : Prog RdelWriter Error Nat).wp (Prog.Delivers d (RdelsOk sh base rs) fun n _ d' =>
        RdelsOk sh base rs ∧ n = (Packing.pack (fitsRdel sh) rs).bins.length ∧
        RdelWriter.Written sh base d.blocks (Packing.pack (fitsRdel sh) rs).bins d') (RdelWriter.new base) d := by
    refine Prog.delivers_bind (RdelWriter.pushRdels_delivers rs hnew hd) (fun hok => hok.1) ?_
    rintro _ w' d' ⟨hp, h', hd'⟩
    refine Prog.delivers_mono (RdelWriter.finish_delivers h' hd') (fun hok => hok.2) ?_
    rintro n w'' d'' ⟨ht, hn, hd''⟩
    exact ⟨⟨hp, ht⟩, hn, hd''⟩
  rw [writeRdelBlocks]
  refine Prog.delivers_bind (Prog.delivers_runLocal hlocal) (fun hok => hok) ?_
  rintro ⟨n, w'⟩ s' d' ⟨rfl, hok⟩
  exact Prog.delivers_pure ⟨rfl, hok⟩

/-! ### The plan of the section -/

/-- The running state of `plan_rdel_blocks` after the tombstones of `p`. -/
structure RdelPlan.Follows (s : RdelPlan × Nat) (p : Packing RdelEntry) : Prop where
  blocks_eq : s.1.blocks = p.closed.length
  payload_eq : s.2 = (encodeRdels p.current).length

theorem planRdelStep_follows {s : RdelPlan × Nat} {p : Packing RdelEntry} {r : RdelEntry} (h : RdelPlan.Follows s p)
    (hfit : fitsRdel sh [] r = true) :
    ∃ s', planRdelStep sh s r = .ok s' ∧ RdelPlan.Follows s' (p.push (fitsRdel sh) r) := by
  obtain ⟨plan, payload⟩ := s
  obtain ⟨hblocks, hpayload⟩ := h
  dsimp only at hblocks hpayload
  have hlen := RdelWriter.length_encodeRdel r
  have hsmall : rdelEntryLen r.start.length r.stop.length + RDEL_TRAILER ≤ sh.BLOCK := by
    simpa [fitsRdel, encodeRdels, hlen] using hfit
  have hcur : fitsRdel sh p.current r = true ↔
      payload + rdelEntryLen r.start.length r.stop.length + RDEL_TRAILER ≤ sh.BLOCK := by
    simp [fitsRdel, hpayload, hlen]
  unfold planRdelStep
  dsimp only
  rw [if_neg (by omega)]
  refine ⟨_, rfl, ?_⟩
  by_cases hf : fitsRdel sh p.current r = true
  · have hroom := hcur.mp hf
    rw [Packing.push_fits hf]
    constructor
    · show (if _ then plan.blocks + 1 else plan.blocks) = _
      rw [if_neg (by omega), hblocks]
    · show (if _ then 0 else payload) + _ = _
      rw [if_neg (by omega), encodeRdels_concat, List.length_append, hlen, hpayload]
  · have hfull : ¬ payload + rdelEntryLen r.start.length r.stop.length + RDEL_TRAILER ≤ sh.BLOCK := fun hc => hf (hcur.mpr hc)
    rw [Packing.push_full (by simpa using hf)]
    constructor
    · show (if _ then plan.blocks + 1 else plan.blocks) = _
      rw [if_pos (by omega), hblocks]
      simp
    · show (if _ then 0 else payload) + _ = _
      rw [if_pos (by omega)]
      simp [encodeRdels, hlen]

theorem planRdel_follows {s : RdelPlan × Nat} {p : Packing RdelEntry} {rs : List RdelEntry} (h : RdelPlan.Follows s p)
    (hfit : ∀ r ∈ rs, fitsRdel sh [] r = true) :
    ∃ s', rs.foldlM (planRdelStep sh) s = .ok s' ∧ RdelPlan.Follows s' (rs.foldl (Packing.push (fitsRdel sh)) p) := by
  induction rs generalizing s p with
  | nil => exact ⟨s, rfl, h⟩
  | cons r rs ih =>
    obtain ⟨s₁, hs₁, h₁⟩ := planRdelStep_follows h (hfit r (by simp))
    obtain ⟨s', hs', h'⟩ := ih h₁ fun x hx => hfit x (by simp [hx])
    refine ⟨s', ?_, h'⟩
    rw [List.foldlM_cons, hs₁]
    exact hs'

theorem encodeRdels_ne_nil {b : List RdelEntry} (hb : b ≠ []) : 0 < (encodeRdels b).length := by
  obtain ⟨r, b, rfl⟩ := List.exists_cons_of_ne_nil hb
  have := encodeRdel_pos r
  simp only [encodeRdels, List.flatMap_cons, List.length_append]
  omega

/-- The plan of a section counts the blocks of its packing. -/
theorem planRdelBlocks_eq {rs : List RdelEntry} (hfit : ∀ r ∈ rs, fitsRdel sh [] r = true) :
    ∃ plan, planRdelBlocks sh rs = .ok plan ∧ plan.blocks = (Packing.pack (fitsRdel sh) rs).bins.length := by
  obtain ⟨s, hs, hblocks, hpayload⟩ := planRdel_follows (s := (⟨0, none, none, 0, U64_MAX⟩, 0)) (p := Packing.empty) ⟨rfl, rfl⟩ hfit
  unfold planRdelBlocks
  rw [hs]
  refine ⟨_, rfl, ?_⟩
  show (if s.2 > 0 then s.1.blocks + 1 else s.1.blocks) = _
  rw [Packing.bins]
  by_cases hcur : (Packing.pack (fitsRdel sh) rs).current = []
  · have hzero : s.2 = 0 := by
      rw [hpayload]
      show (encodeRdels (Packing.pack (fitsRdel sh) rs).current).length = 0
      rw [hcur]
      rfl
    rw [if_pos hcur, if_neg (by omega)]
    exact hblocks
  · have hpos : s.2 > 0 := by
      rw [hpayload]
      exact encodeRdels_ne_nil hcur
    rw [if_neg hcur, if_pos hpos, hblocks, List.length_append]
    rfl

end Sstable

end Horton
