import Horton.Wal.Scan

/-!
# What a replay puts in the memtable

Every record becomes one entry (`Record.entry`), and a replay adds exactly the entries of its records.  The inserts of the
write path are the same ones, so what a key reads as in the memtable was the value of a record.
-/

namespace Horton

open BlockDev

/-- The memtable entry of a record. -/
def Record.entry (r : Record) : Entry :=
  match r.op with
  | .put => ⟨r.key, r.val, r.seq, false, false, 0⟩
  | .delete => ⟨r.key, [], r.seq, true, false, 0⟩
  | .putTtl => ⟨r.key, r.val, r.seq, false, false, r.expireAt⟩
  | .rangeDelete => ⟨r.key, r.val, r.seq, true, true, 0⟩

variable {sh : Shape} {t t' : MemTable} {r : Record} {rs : List Record}

namespace MemTable

/-- The shape of every insert: a plan that may fail, then the entry. -/
private theorem iter_insert {x : Except Error Plan} {key val : Bytes} {valLen seq expireAt : Nat} {tombstone rangeDel : Bool}
    (ht : t.Intact) (hx : ∀ p, x = .ok p → Planned sh t p key valLen) (hv : valLen ≤ val.length)
    (h : (x >>= fun p => pure (t.apply p key val seq tombstone rangeDel expireAt)) = Except.ok t') :
    t'.Intact ∧ t'.iter = t.iter.take (t.lowerBound key) ++
      ⟨key, val.take valLen, seq, tombstone, rangeDel, expireAt⟩ :: t.iter.drop (t.lowerBound key) := by
  cases hp : x with
  | error e => rw [hp] at h; cases h
  | ok p =>
    rw [hp] at h
    obtain rfl := Except.ok.inj h
    exact iter_apply ht (hx p hp) hv seq tombstone rangeDel expireAt

/-- Replaying a record puts its entry in front of its key's run. -/
theorem iter_replayRecord (ht : t.Intact) (h : WalWriter.replayRecord sh t r = .ok t') :
    t'.Intact ∧ t'.iter = t.iter.take (t.lowerBound r.key) ++ r.entry :: t.iter.drop (t.lowerBound r.key) := by
  have htake : r.val.take r.val.length = r.val := List.take_length
  unfold WalWriter.replayRecord at h
  unfold Record.entry
  cases hop : r.op with
  | put =>
    rw [hop] at h
    have := iter_insert ht (fun p hp => (plan_ok hp).1) (by simp) h
    simpa [htake] using this
  | putTtl =>
    rw [hop] at h
    have := iter_insert ht (fun p hp => (plan_ok hp).1) (by simp) h
    simpa [htake] using this
  | delete =>
    rw [hop] at h
    have := iter_insert ht (fun p hp => (plan_ok hp).1) (by simp) h
    simpa using this
  | rangeDelete =>
    rw [hop] at h
    have := iter_insert ht (fun p hp => (planRangeDel_ok hp).1) le_rfl h
    simpa [htake] using this

/-- A replay adds the entries of its records, each once. -/
theorem iter_replayAll (ht : t.Intact) (h : replayAll sh t rs = .ok t') :
    t'.Intact ∧ t'.iter.Perm (rs.map Record.entry ++ t.iter) := by
  induction rs generalizing t with
  | nil =>
    obtain rfl := Except.ok.inj h
    exact ⟨ht, .refl _⟩
  | cons r rs ih =>
    rw [replayAll, List.foldlM_cons] at h
    cases hr : WalWriter.replayRecord sh t r with
    | error e => rw [hr] at h; cases h
    | ok t₁ =>
      rw [hr] at h
      obtain ⟨ht₁, hiter⟩ := iter_replayRecord ht hr
      obtain ⟨h1, h2⟩ := ih ht₁ h
      refine ⟨h1, h2.trans ?_⟩
      have h3 : t₁.iter.Perm (r.entry :: t.iter) := by
        rw [hiter]
        refine List.perm_middle.trans ?_
        rw [List.take_append_drop]
      exact (h3.append_left _).trans List.perm_middle

end MemTable

end Horton
