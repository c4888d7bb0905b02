import Todb.Verification.Sst.BlockCursor

/-! # Searches within a block

Where the two binary searches of `NormalBlockIter` leave the iterator, and where it goes from
there. -/

namespace Todb.NormalBlockIter

open Library

variable {it : NormalBlockIter} {keys : List Bytes}

/-! ## Positions after a search -/

theorem initial_lt (hasc : keys.Pairwise (· < ·)) (target : Bytes) :
    Initial (fun key => decide (key < target)) keys :=
  hasc.imp fun hab hb => by simpa using hab.trans (by simpa using hb)

theorem initial_le (hasc : keys.Pairwise (· < ·)) (target : Bytes) :
    Initial (fun key => decide (key ≤ target)) keys :=
  hasc.imp fun hab hb => by simpa using hab.le.trans (by simpa using hb)

/-- The position of the first key at or above `target`. -/
def lowerPlace (keys : List Bytes) (target : Bytes) : Option ℕ :=
  let lo := keys.countP fun key => decide (key < target)
  if lo < keys.length then some lo else none

/-- The position of the last key at or below `target`. -/
def upperPlace (keys : List Bytes) (target : Bytes) : Option ℕ :=
  let lo := keys.countP fun key => decide (key ≤ target)
  if lo = 0 then none else some (lo - 1)

theorem Keyed.seek_forward (h : it.Keyed keys) (hasc : keys.Pairwise (· < ·)) (target : Bytes) :
    it.seek .forward target = .ok (it.withCurr (lowerPlace keys target)) := by
  have hsearch := h.bisect_eq (fun key => decide (key < target)) (initial_lt hasc target)
  simp only [NormalBlockIter.seek, hsearch, Ran.read_ok, lowerPlace]
  rw [h.count_eq]

theorem Keyed.seek_reverse (h : it.Keyed keys) (hasc : keys.Pairwise (· < ·)) (target : Bytes) :
    it.seek .reverse target = .ok (it.withCurr (upperPlace keys target)) := by
  have hsearch := h.bisect_eq (fun key => decide (key ≤ target)) (initial_le hasc target)
  simp only [NormalBlockIter.seek, hsearch, Ran.read_ok, upperPlace]

theorem lowerPlace_eq_some (hasc : keys.Pairwise (· < ·)) (target : Bytes) (i : ℕ) :
    lowerPlace keys target = some i ↔
      IsLeast {j | ∃ hj : j < keys.length, target ≤ keys[j]} i := by
  have hset : {j | ∃ hj : j < keys.length, target ≤ keys[j]} =
      {j | ∃ hj : j < keys.length, decide (keys[j] < target) = false} := by
    simp
  rw [hset, lowerPlace]
  constructor
  · intro hi
    split at hi
    · rename_i hlt
      exact Option.some.inj hi ▸ (initial_lt hasc target).isLeast_countP hlt
    · cases hi
  · intro hleast
    obtain ⟨hi, hfalse⟩ := hleast.1
    have hlt : keys.countP (fun key => decide (key < target)) < keys.length :=
      Initial.countP_lt_of_exists ⟨keys[i], List.getElem_mem hi, hfalse⟩
    rw [if_pos hlt, ((initial_lt hasc target).isLeast_countP hlt).unique hleast]

theorem lowerPlace_eq_none (target : Bytes) :
    lowerPlace keys target = none ↔ ∀ key ∈ keys, key < target := by
  have hle : keys.countP (fun key => decide (key < target)) ≤ keys.length := List.countP_le_length
  have hall := List.countP_eq_length (p := fun key => decide (key < target)) (l := keys)
  simp only [decide_eq_true_eq] at hall
  rw [lowerPlace, ← hall]
  split
  · rename_i hlt
    exact iff_of_false (by simp) hlt.ne
  · rename_i hge
    exact iff_of_true rfl (by omega)

theorem upperPlace_eq_some (hasc : keys.Pairwise (· < ·)) (target : Bytes) (i : ℕ) :
    upperPlace keys target = some i ↔
      IsGreatest {j | ∃ hj : j < keys.length, keys[j] ≤ target} i := by
  have hset : {j | ∃ hj : j < keys.length, keys[j] ≤ target} =
      {j | ∃ hj : j < keys.length, decide (keys[j] ≤ target) = true} := by
    simp
  rw [hset, upperPlace]
  constructor
  · intro hi
    split at hi
    · cases hi
    · rename_i hne
      exact Option.some.inj hi ▸
        (initial_le hasc target).isGreatest_countP (Nat.pos_of_ne_zero hne)
  · intro hgreatest
    obtain ⟨hi, htrue⟩ := hgreatest.1
    have hpos : 0 < keys.countP (fun key => decide (key ≤ target)) :=
      List.countP_pos_iff.mpr ⟨keys[i], List.getElem_mem hi, htrue⟩
    rw [if_neg hpos.ne', ((initial_le hasc target).isGreatest_countP hpos).unique hgreatest]

theorem upperPlace_eq_none (target : Bytes) :
    upperPlace keys target = none ↔ ∀ key ∈ keys, target < key := by
  have hall := List.countP_eq_zero (p := fun key => decide (key ≤ target)) (l := keys)
  simp only [decide_eq_true_eq, not_le] at hall
  rw [upperPlace, ← hall]
  split
  · rename_i hzero
    exact iff_of_true rfl hzero
  · rename_i hne
    exact iff_of_false (by simp) hne

/-! ## Steps from there -/

/-- Where `n` steps forward lead in a block of `count` keys. -/
def ahead (count n i : ℕ) : Option ℕ := if i + n < count then some (i + n) else none

/-- Where `n` steps back lead. -/
def back (n i : ℕ) : Option ℕ := if n ≤ i then some (i - n) else none

variable (it)

theorem nexts_none (d : Direction) (n : ℕ) :
    Cursor.nexts d n (it.withCurr none) = .ok (it.withCurr none) := by
  induction n with
  | zero => rfl
  | succ n ih =>
      have hnext : Cursor.next d (it.withCurr none) = .ok (it.withCurr none) := by
        cases d <;> rfl
      rw [Cursor.nexts, hnext]
      exact ih

theorem nexts_forward {i : ℕ} (hi : i < it.count) (n : ℕ) :
    Cursor.nexts .forward n (it.withCurr (some i)) = .ok (it.withCurr (ahead it.count n i)) := by
  induction n generalizing i with
  | zero => simp [Cursor.nexts, ahead, hi]
  | succ n ih =>
      have hnext : Cursor.next .forward (it.withCurr (some i)) =
          .ok (it.withCurr (if i + 1 < it.count then some (i + 1) else none)) := rfl
      rw [Cursor.nexts, hnext, Ran.bind_ok]
      split
      · rename_i hlt
        rw [ih hlt, ahead, ahead, Nat.add_assoc, Nat.add_comm 1 n]
      · rw [nexts_none, ahead, if_neg (by omega)]

theorem nexts_reverse (i n : ℕ) :
    Cursor.nexts .reverse n (it.withCurr (some i)) = .ok (it.withCurr (back n i)) := by
  induction n generalizing i with
  | zero => simp [Cursor.nexts, back]
  | succ n ih =>
      have hnext : Cursor.next .reverse (it.withCurr (some i)) =
          .ok (it.withCurr (if i = 0 then none else some (i - 1))) := rfl
      rw [Cursor.nexts, hnext, Ran.bind_ok]
      split
      · rw [nexts_none, back, if_neg (by omega)]
      · have hback : back n (i - 1) = back (n + 1) i := by
          by_cases hn : n + 1 ≤ i
          · rw [back, back, if_pos (by omega), if_pos hn, Nat.sub_sub, Nat.add_comm 1 n]
          · rw [back, back, if_neg (by omega), if_neg hn]
        rw [ih, hback]

variable {it}

/-- Whatever the position before: a forward search ends at the first key at or above the target
and `next` visits the keys behind it; a reverse search ends at the last key at or below the
target and `next` visits the keys in front of it. At the end the iterator stays invalid. -/
theorem block_searches (h : it.Keyed keys) (hasc : keys.Pairwise (· < ·)) (target : Bytes) :
    (∃ s, it.seek .forward target = .ok s ∧
      (∀ i, s.curr = some i ↔ IsLeast {j | ∃ hj : j < keys.length, target ≤ keys[j]} i) ∧
      (s.valid = false ↔ ∀ key ∈ keys, key < target) ∧
      ∀ n, ∃ s', Cursor.nexts .forward n s = .ok s' ∧
        s'.curr = s.curr.bind fun i => if i + n < keys.length then some (i + n) else none) ∧
    (∃ s, it.seek .reverse target = .ok s ∧
      (∀ i, s.curr = some i ↔ IsGreatest {j | ∃ hj : j < keys.length, keys[j] ≤ target} i) ∧
      (s.valid = false ↔ ∀ key ∈ keys, target < key) ∧
      ∀ n, ∃ s', Cursor.nexts .reverse n s = .ok s' ∧
        s'.curr = s.curr.bind fun i => if n ≤ i then some (i - n) else none) := by
  refine ⟨⟨_, h.seek_forward hasc target, fun i => lowerPlace_eq_some hasc target i, ?_,
      fun n => ?_⟩,
    ⟨_, h.seek_reverse hasc target, fun i => upperPlace_eq_some hasc target i, ?_, fun n => ?_⟩⟩
  · rw [← lowerPlace_eq_none]
    simp [valid, withCurr]
  · cases hplace : lowerPlace keys target with
    | none => exact ⟨_, nexts_none it .forward n, rfl⟩
    | some i =>
        obtain ⟨hi, -⟩ := ((lowerPlace_eq_some hasc target i).mp hplace).1
        refine ⟨_, nexts_forward it (lt_of_lt_of_eq hi h.count_eq.symm) n, ?_⟩
        simp [withCurr, ahead, h.count_eq]
  · rw [← upperPlace_eq_none]
    simp [valid, withCurr]
  · cases hplace : upperPlace keys target with
    | none => exact ⟨_, nexts_none it .reverse n, rfl⟩
    | some i => exact ⟨_, nexts_reverse it i n, rfl⟩

/-- A block with the keys `[1]` and `[5]` and empty values. -/
def twoKeys : Bytes :=
  [0, 0, 0, 2, 0, 0, 0, 28, 0, 0, 0, 29, 0, 0, 0, 30, 0, 0, 0, 30, 0, 0, 0, 30, 0, 0, 0, 30, 1, 5]

/-- A search between the keys, from the last position of the block. -/
theorem block_searches_between :
    ∃ it, NormalBlockIter.new twoKeys = .ok it ∧ (it.withCurr (some 1)).Keyed [[1], [5]] ∧
      (∃ s, (it.withCurr (some 1)).seek .forward [3] = .ok s ∧ s.valid = true) ∧
      ∃ s, (it.withCurr (some 1)).seek .reverse [3] = .ok s ∧ s.valid = true := by
  have hkeyed : NormalBlockIter.Keyed ⟨twoKeys, [28, 29, 30], [30, 30, 30], 2, some 1⟩ [[1], [5]] :=
    ⟨rfl, by decide⟩
  obtain ⟨⟨s, hs, -, hinvalid, -⟩, s', hs', -, hinvalid', -⟩ :=
    block_searches hkeyed (by decide) [3]
  refine ⟨_, rfl, hkeyed, ⟨s, hs, ?_⟩, s', hs', ?_⟩
  · rw [← Bool.not_eq_false, hinvalid]
    decide
  · rw [← Bool.not_eq_false, hinvalid']
    decide

end Todb.NormalBlockIter
