import Todb.Verification.Iterators.Memtable
import Todb.Model.Iterators.Merge

/-! # `ConcatIter` iterates the concatenation

The cursor in use stands inside its own sequence; the sequences ahead of it are read in full
when they are reached, whatever their cursors did before. -/

namespace Todb

open Library

variable {ι κ ν : Type} [LinearOrder κ] [Cursor ι κ ν Fault]

namespace ConcatIter

variable {lists : List (List (κ × ν))} {d : Direction} {s : ConcatIter ι} {l : List (κ × ν)}

/-- Every cursor iterates its own sequence. -/
structure Keeps (lists : List (List (κ × ν))) (s : ConcatIter ι) : Prop where
  length : s.iter.length = lists.length
  iterates : ∀ {i : ℕ} {it : ι} {l : List (κ × ν)}, s.iter[i]? = some it → lists[i]? = some l →
    Cursor.Iterates (fun d => d.order l) it

/-- The sequences after the one in use, in scan order. -/
def ahead (d : Direction) (lists : List (List (κ × ν))) (curr : ℕ) : List (List (κ × ν)) :=
  match d with
  | .forward => lists.drop (curr + 1)
  | .reverse => (lists.take curr).reverse.map List.reverse

/-- The cursor in use has `l` left together with the sequences ahead, or all is used up. -/
def At (lists : List (List (κ × ν))) (d : Direction) (s : ConcatIter ι) (l : List (κ × ν)) : Prop :=
  Keeps lists s ∧ (s.valid = false ∧ l = [] ∨
    ∃ it rest, s.iter[s.curr]? = some it ∧ Cursor.Yields d it rest ∧ rest ≠ [] ∧
      l = rest ++ (ahead d lists s.curr).flatten)

/-- What the loops find: the first sequence of which `g` leaves something, and all after it. -/
def fromFirst (g : List (κ × ν) → List (κ × ν)) : List (List (κ × ν)) → List (κ × ν)
  | [] => []
  | l :: ls => if (g l).isEmpty then fromFirst g ls else g l ++ ls.flatten

section FromFirst

variable {g : List (κ × ν) → List (κ × ν)} {ls : List (List (κ × ν))}

omit [LinearOrder κ] in
theorem fromFirst_skip (h : g l = []) : fromFirst g (l :: ls) = fromFirst g ls := by
  simp [fromFirst, h]

omit [LinearOrder κ] in
theorem fromFirst_stop (h : g l ≠ []) : fromFirst g (l :: ls) = g l ++ ls.flatten := by
  simp [fromFirst, h]

omit [LinearOrder κ] in
theorem fromFirst_id (ls : List (List (κ × ν))) : fromFirst id ls = ls.flatten := by
  induction ls with
  | nil => rfl
  | cons l ls ih =>
      cases l with
      | nil => simpa [fromFirst] using ih
      | cons e l => simp [fromFirst]

theorem fromFirst_filter (h : d.Sorted ls.flatten) (target : κ) :
    fromFirst (List.filter fun e => !Cursor.before d target e) ls =
      ls.flatten.filter fun e => !Cursor.before d target e := by
  induction ls with
  | nil => rfl
  | cons l ls ih =>
      rw [List.flatten_cons] at h
      obtain ⟨-, hls, hbetween⟩ := List.pairwise_append.mp h
      rw [List.flatten_cons, List.filter_append]
      by_cases hnone : l.filter (fun e => !Cursor.before d target e) = []
      · rw [fromFirst_skip hnone, hnone, ih hls, List.nil_append]
      · -- an entry is left, so all the later ones are
        rw [fromFirst_stop hnone]
        obtain ⟨e, he⟩ := List.exists_mem_of_ne_nil _ hnone
        obtain ⟨hin, hkeep⟩ := List.mem_filter.mp he
        congr 1
        refine (List.filter_eq_self.mpr fun e' he' => ?_).symm
        simp only [Direction.before_eq, Bool.not_eq_true', decide_eq_false_iff_not] at hkeep ⊢
        exact fun hlt => hbetween e hin e' he' (hlt.trans_not hkeep)

end FromFirst

/-- `move` positions a cursor before what `g` leaves of its sequence. -/
def Places (d : Direction) (move : ι → Ran Fault ι) (g : List (κ × ν) → List (κ × ν)) : Prop :=
  ∀ {it : ι} {l : List (κ × ν)}, Cursor.Iterates (fun d => d.order l) it →
    ∃ it', move it = .ok it' ∧ Cursor.StandsAt (fun d => d.order l) d it' (g (d.order l))

theorem places_seekToFirst (d : Direction) :
    Places d (Cursor.seekToFirst d : ι → Ran Fault ι) (id : List (κ × ν) → List (κ × ν)) :=
  fun h => Cursor.simulation_iterates.seekToFirst d h

theorem places_seek (d : Direction) (target : κ) :
    Places d (Cursor.seek d · target : ι → Ran Fault ι)
      (List.filter fun e : κ × ν => !Cursor.before d target e) :=
  fun h => Cursor.simulation_iterates.seek d target h

namespace Keeps

theorem set (h : Keeps lists s) {i : ℕ} {it : ι} (hi : lists[i]? = some l)
    (hit : Cursor.Iterates (fun d => d.order l) it) : Keeps lists ⟨s.iter.set i it, s.curr⟩ where
  length := by simpa using h.length
  iterates := by
    intro j it' l' hj hl'
    by_cases hij : i = j
    · subst hij
      have hlt : i < s.iter.length := h.length ▸ (List.getElem?_eq_some_iff.mp hi).1
      rw [List.getElem?_set_self hlt] at hj
      obtain rfl := Option.some.inj hj
      obtain rfl := Option.some.inj (hi.symm.trans hl')
      exact hit
    · exact h.iterates (by rwa [List.getElem?_set_ne hij] at hj) hl'

theorem curr (h : Keeps lists s) (curr : ℕ) : Keeps lists ⟨s.iter, curr⟩ := ⟨h.length, h.iterates⟩

end Keeps

omit [LinearOrder κ] in
/-- A call on one cursor, seen from outside. -/
theorem moveAt_eq {i : ℕ} {move : ι → Ran Fault ι} {it it' : ι}
    {onValid onInvalid : ConcatIter ι → Ran Fault (ConcatIter ι)} (hi : s.iter[i]? = some it)
    (hmove : move it = .ok it') (hyields : Cursor.Yields d it' l) :
    (l = [] → s.moveAt i move onValid onInvalid = onInvalid ⟨s.iter.set i it', s.curr⟩) ∧
      (l ≠ [] → s.moveAt i move onValid onInvalid = onValid ⟨s.iter.set i it', s.curr⟩) := by
  obtain ⟨hlt, rfl⟩ := List.getElem?_eq_some_iff.mp hi
  have hvalid := hyields.read.1
  cases l <;> simp_all [moveAt]

/-- A loop's turn on cursor `i`: it stops there, or finds nothing and goes on. -/
theorem Keeps.moveAt (h : Keeps lists s) {i : ℕ} {move : ι → Ran Fault ι}
    {g : List (κ × ν) → List (κ × ν)} (hmove : Places d move g) (hi : lists[i]? = some l) :
    ∃ it', Keeps lists ⟨s.iter.set i it', s.curr⟩ ∧ (s.iter.set i it')[i]? = some it' ∧
      Cursor.Yields d it' (g (d.order l)) ∧
      ∀ onValid onInvalid,
        (g (d.order l) = [] →
          s.moveAt i move onValid onInvalid = onInvalid ⟨s.iter.set i it', s.curr⟩) ∧
        (g (d.order l) ≠ [] →
          s.moveAt i move onValid onInvalid = onValid ⟨s.iter.set i it', s.curr⟩) := by
  have hlt : i < s.iter.length := h.length ▸ (List.getElem?_eq_some_iff.mp hi).1
  have hit := List.getElem?_eq_getElem hlt
  obtain ⟨it', hit', hat⟩ := hmove (h.iterates hit hi)
  exact ⟨it', h.set hi hat.iterates, List.getElem?_set_self hlt, hat.yields, fun _ _ =>
    moveAt_eq hit hit' hat.yields⟩

theorem Keeps.not_valid_of_le (h : Keeps lists s) (hle : lists.length ≤ s.curr) :
    s.valid = false := by
  rw [valid, List.getElem?_eq_none (h.length ▸ hle), Option.any_none]

omit [LinearOrder κ] in
theorem not_valid_of_yields {it : ι} (hit : s.iter[s.curr]? = some it)
    (h : Cursor.Yields d it ([] : List (κ × ν))) : s.valid = false := by
  rw [valid, hit, Option.any_some]
  exact h.read.1

theorem forwardLoop_eq {move : ι → Ran Fault ι} {g : List (κ × ν) → List (κ × ν)} {n : ℕ}
    (hmove : Places .forward move g) (h : Keeps lists s) (hn : lists.length ≤ s.curr + n) :
    ∃ s', forwardLoop move n s = .ok s' ∧
      At lists .forward s' (fromFirst g (lists.drop s.curr)) := by
  induction n generalizing s with
  | zero =>
      refine ⟨s, rfl, h, .inl ⟨h.not_valid_of_le hn, ?_⟩⟩
      rw [List.drop_eq_nil_of_le (by simpa using hn), fromFirst]
  | succ n ih =>
      by_cases hlt : s.curr < lists.length
      · obtain ⟨it', hkeeps, hit', hyields, heq⟩ :=
          h.moveAt hmove (List.getElem?_eq_getElem hlt)
        rw [List.drop_eq_getElem_cons hlt, forwardLoop, if_pos (h.length ▸ hlt)]
        by_cases hnone : g lists[s.curr] = []
        · rw [(heq _ _).1 hnone, fromFirst_skip hnone]
          exact ih (hkeeps.curr (s.curr + 1)) (by simpa [Nat.add_right_comm, Nat.add_assoc] using hn)
        · rw [(heq _ _).2 hnone, fromFirst_stop hnone]
          exact ⟨_, rfl, hkeeps, .inr ⟨it', _, hit', hyields, hnone, rfl⟩⟩
      · have hle := Nat.le_of_not_lt hlt
        refine ⟨s, by simp [forwardLoop, h.length, hlt], h, .inl ⟨h.not_valid_of_le hle, ?_⟩⟩
        rw [List.drop_eq_nil_of_le hle, fromFirst]

omit [LinearOrder κ] in
theorem ahead_reverse_succ {i : ℕ} (hi : i < lists.length) :
    ahead .reverse lists (i + 1) = lists[i].reverse :: ahead .reverse lists i := by
  simp only [ahead, List.take_succ_eq_append_getElem hi, List.reverse_append, List.map_append]
  rfl

omit [LinearOrder κ] in
theorem flatten_ahead_reverse (n : ℕ) :
    (ahead .reverse lists n).flatten = (lists.take n).flatten.reverse := by
  rw [ahead, List.reverse_flatten, List.map_reverse]

theorem reverseLoop_eq {move : ι → Ran Fault ι} {g : List (κ × ν) → List (κ × ν)} {n : ℕ}
    (hmove : Places .reverse move g) (h : Keeps lists s) (hn : s.curr < n)
    (hlt : s.curr < lists.length) :
    ∃ s', reverseLoop move n s = .ok s' ∧
      At lists .reverse s' (fromFirst g (ahead .reverse lists (s.curr + 1))) := by
  induction n generalizing s with
  | zero => omega
  | succ n ih =>
      obtain ⟨it', hkeeps, hit', hyields, heq⟩ := h.moveAt hmove (List.getElem?_eq_getElem hlt)
      rw [ahead_reverse_succ hlt, reverseLoop]
      by_cases hnone : g lists[s.curr].reverse = []
      · rw [(heq _ _).1 hnone, fromFirst_skip hnone]
        by_cases hzero : s.curr = 0
        · refine ⟨_, if_pos hzero, hkeeps, .inl ⟨?_, by simp [hzero, ahead, fromFirst]⟩⟩
          exact not_valid_of_yields hit' (hnone ▸ hyields)
        · rw [if_neg hzero]
          obtain ⟨i, hi⟩ := Nat.exists_eq_add_one_of_ne_zero hzero
          have hrest := ih (hkeeps.curr i) (by simp; omega) (by simp; omega)
          simpa [hi] using hrest
      · rw [(heq _ _).2 hnone, fromFirst_stop hnone]
        exact ⟨_, rfl, hkeeps, .inr ⟨it', _, hit', hyields, hnone, rfl⟩⟩

/-- The loop ends at cursor 0, which is then invalid. -/
theorem reverseSeekLoop_eq {move : ι → Ran Fault ι} {g : List (κ × ν) → List (κ × ν)} {n : ℕ}
    (hmove : Places .reverse move g) (h : Keeps lists s) (hn : n ≤ lists.length)
    (hzero : n = 0 → (⟨s.iter, 0⟩ : ConcatIter ι).valid = false) :
    ∃ s', reverseSeekLoop move n s = .ok s' ∧
      At lists .reverse s' (fromFirst g (ahead .reverse lists n)) := by
  induction n generalizing s with
  | zero => exact ⟨_, rfl, h.curr 0, .inl ⟨hzero rfl, by simp [ahead, fromFirst]⟩⟩
  | succ n ih =>
      obtain ⟨it', hkeeps, hit', hyields, heq⟩ := h.moveAt hmove (List.getElem?_eq_getElem hn)
      rw [ahead_reverse_succ hn, reverseSeekLoop]
      by_cases hnone : g lists[n].reverse = []
      · rw [(heq _ _).1 hnone, fromFirst_skip hnone]
        refine ih hkeeps (Nat.le_of_succ_le hn) fun hn0 => ?_
        subst hn0
        exact not_valid_of_yields hit' (hnone ▸ hyields)
      · rw [(heq _ _).2 hnone, fromFirst_stop hnone]
        exact ⟨_, rfl, hkeeps.curr n, .inr ⟨it', _, hit', hyields, hnone, rfl⟩⟩

theorem At.read (h : At lists d s l) : Cursor.valid s = !l.isEmpty ∧
    Cursor.key s = .ok (l.head?.map Prod.fst) ∧ Cursor.value s = .ok (l.head?.map Prod.snd) := by
  rcases h with ⟨-, ⟨hvalid, rfl⟩ | ⟨it, rest, hit, hyields, hne, rfl⟩⟩
  · simp [Cursor.valid, Cursor.key, Cursor.value, hvalid]
  · obtain ⟨hvalid, hkey, hvalue⟩ := hyields.read
    cases rest with
    | nil => exact absurd rfl hne
    | cons e rest =>
        have hself : s.valid = true := by simpa [ConcatIter.valid, hit] using hvalid
        simp only [Cursor.valid, Cursor.key, Cursor.value, hself, hit]
        exact ⟨rfl, hkey, hvalue⟩

/-- What is left when the cursor in use has run out is found by the loops. -/
theorem Keeps.runOut (h : Keeps lists s) (hlt : s.curr < lists.length) (hout : s.valid = false) :
    ∃ s' : ConcatIter ι, (match d with
      | .forward => forwardLoop (Cursor.seekToFirst .forward) s.iter.length
          { s with curr := s.curr + 1 }
      | .reverse =>
          if 0 < s.curr then
            reverseLoop (Cursor.seekToFirst .reverse) s.iter.length { s with curr := s.curr - 1 }
          else .ok s : Ran Fault (ConcatIter ι)) = .ok s' ∧ At lists d s' (ahead d lists s.curr).flatten := by
  cases d with
  | forward =>
      rw [← fromFirst_id]
      exact forwardLoop_eq (places_seekToFirst .forward) (h.curr _) (by simp [h.length])
  | reverse =>
      by_cases hzero : 0 < s.curr
      · obtain ⟨i, hi⟩ := Nat.exists_eq_add_one_of_ne_zero (Nat.ne_of_gt hzero)
        simp only [if_pos hzero]
        rw [← fromFirst_id]
        have hloop := reverseLoop_eq (places_seekToFirst .reverse) (h.curr i)
          (by simp [h.length]; omega) (by simp; omega) (n := s.iter.length)
        simpa [hi] using hloop
      · refine ⟨s, by simp [hzero], h, .inl ⟨hout, ?_⟩⟩
        simp [Nat.eq_zero_of_not_pos hzero, ahead]

theorem At.next (h : At lists d s l) : ∃ s', Cursor.next d s = .ok s' ∧ At lists d s' l.tail := by
  change ∃ s', ConcatIter.next d s = .ok s' ∧ _
  have hread := h.read.1
  obtain ⟨hkeeps, ⟨hvalid, rfl⟩ | ⟨it, rest, hit, hyields, hne, rfl⟩⟩ := h
  · exact ⟨s, by simp [ConcatIter.next, hvalid], hkeeps, .inl ⟨hvalid, rfl⟩⟩
  · obtain ⟨e, rest, rfl⟩ := List.exists_cons_of_ne_nil hne
    have hlt : s.curr < lists.length := hkeeps.length ▸ (List.getElem?_eq_some_iff.mp hit).1
    have hl := List.getElem?_eq_getElem hlt
    obtain ⟨it', hit', hat⟩ :=
      Cursor.simulation_iterates.next ⟨hkeeps.iterates hit hl, hyields⟩
    have hkeeps' := hkeeps.set hl hat.iterates
    have hget := List.getElem?_set_self (hkeeps.length ▸ hlt : s.curr < s.iter.length) (a := it')
    rw [ConcatIter.next, show s.valid = true from hread]
    by_cases hrest : rest = []
    · subst hrest
      rw [if_neg (by simp), (moveAt_eq hit hit' hat.yields).1 rfl]
      exact hkeeps'.runOut hlt (not_valid_of_yields hget hat.yields)
    · rw [if_neg (by simp), (moveAt_eq hit hit' hat.yields).2 hrest]
      exact ⟨_, rfl, hkeeps', .inr ⟨it', rest, hget, hat.yields, hrest, rfl⟩⟩

omit [LinearOrder κ] in
theorem moveAt_eq_ok {i : ℕ} {move : ι → Ran Fault ι} {s' : ConcatIter ι}
    {onValid onInvalid : ConcatIter ι → Ran Fault (ConcatIter ι)}
    (h : s.moveAt i move onValid onInvalid = .ok s') :
    ∃ it it', s.iter[i]? = some it ∧ move it = .ok it' ∧
      ((s.iter.set i it')[i]?.any Cursor.valid = true ∧
          onValid ⟨s.iter.set i it', s.curr⟩ = .ok s' ∨
        (s.iter.set i it')[i]?.any Cursor.valid = false ∧
          onInvalid ⟨s.iter.set i it', s.curr⟩ = .ok s') := by
  obtain ⟨it, hit, h⟩ := Ran.read_eq_ok.mp h
  obtain ⟨t, ht, h⟩ := Ran.bind_eq_ok.mp h
  obtain ⟨it', hit', rfl⟩ := Ran.map_eq_ok.mp ht
  refine ⟨it, it', ?_, hit', ?_⟩
  · cases hi : s.iter[i]? with
    | none => simp [index, hi] at hit
    | some it => simpa [index, hi] using hit
  · split at h
    · exact .inl ⟨‹_›, h⟩
    · exact .inr ⟨Bool.not_eq_true _ ▸ ‹_›, h⟩

theorem Keeps.next {s' : ConcatIter ι} (h : Keeps lists s) (hs' : ConcatIter.next d s = .ok s') :
    Keeps lists s' := by
  rw [ConcatIter.next] at hs'
  split at hs'
  · exact Ran.ok_inj.mp hs' ▸ h
  · obtain ⟨it, it', hit, hit', hs'⟩ := moveAt_eq_ok hs'
    have hlt : s.curr < lists.length := h.length ▸ (List.getElem?_eq_some_iff.mp hit).1
    have hl := List.getElem?_eq_getElem hlt
    have hkeeps := h.set hl
      (Cursor.simulation_iterates.next_inv d (h.iterates hit hl) hit')
    rcases hs' with ⟨-, hs'⟩ | ⟨hout, hs'⟩
    · exact Ran.ok_inj.mp hs' ▸ hkeeps
    · obtain ⟨t, ht, hat⟩ := hkeeps.runOut hlt hout
      exact Ran.ok_inj.mp (ht.symm.trans hs') ▸ hat.1

theorem simulation (hsorted : ∀ d : Direction, d.Sorted (d.order lists.flatten)) :
    Cursor.Simulation (fun d => d.order lists.flatten) (Keeps lists : ConcatIter ι → Prop)
      (At lists) where
  inv_of_at h := h.1
  read h := h.read
  next h := h.next
  next_inv _ h hnext := h.next hnext
  seekToFirst d h := by
    rename_i s
    cases d with
    | forward =>
        have hloop := forwardLoop_eq (places_seekToFirst .forward) (h.curr 0) (n := s.iter.length)
          (by simp [h.length])
        rwa [List.drop_zero, fromFirst_id] at hloop
    | reverse =>
        change ∃ s', ConcatIter.seekToFirst .reverse s = .ok s' ∧ _
        have hlength := h.length
        cases hlists : lists.length with
        | zero =>
            obtain rfl := List.length_eq_zero_iff.mp hlists
            have hempty : s.iter.isEmpty = true := by
              simpa [List.isEmpty_iff, ← List.length_eq_zero_iff] using hlength
            exact ⟨s, by simp [ConcatIter.seekToFirst, hempty], h,
              .inl ⟨h.not_valid_of_le (Nat.zero_le _), rfl⟩⟩
        | succ n =>
            have hempty : s.iter.isEmpty = false := by
              simp [List.isEmpty_eq_false_iff, ← List.length_pos_iff]; omega
            have hloop := reverseLoop_eq (places_seekToFirst .reverse) (h.curr n)
              (by simp; omega) (by simp; omega) (n := s.iter.length)
            rw [fromFirst_id, flatten_ahead_reverse, List.take_of_length_le hlists.le] at hloop
            simpa [ConcatIter.seekToFirst, hempty, hlength, hlists, Direction.order] using hloop
  seek d target h := by
    rename_i s
    cases d with
    | forward =>
        have hloop := forwardLoop_eq (places_seek .forward target) (h.curr 0) (n := s.iter.length)
          (by simp [h.length])
        rwa [List.drop_zero, fromFirst_filter (hsorted .forward)] at hloop
    | reverse =>
        have hloop := reverseSeekLoop_eq (places_seek .reverse target) h le_rfl fun hzero => ?_
        · have hall : (ahead .reverse lists lists.length).flatten = lists.flatten.reverse := by
            rw [flatten_ahead_reverse, List.take_length]
          rw [fromFirst_filter (hall ▸ hsorted .reverse), hall, ← h.length] at hloop
          exact hloop
        · exact (h.curr 0).not_valid_of_le hzero.le

end ConcatIter

/-- Cursors over strictly ascending sequences that follow one another iterate, chained, the
concatenation in either direction, after any calls. -/
theorem concatIter_iterates (iters : List ι) (lists : List (List (κ × ν)))
    (hiters : List.Forall₂ (fun it l => Cursor.Iterates (fun d => d.order l) it) iters lists)
    (hasc : Ascending lists.flatten) :
    Cursor.Iterates (fun d => d.order lists.flatten) (ConcatIter.new iters) := by
  have hsorted : ∀ d : Direction, d.Sorted (d.order lists.flatten) := fun d =>
    (Direction.strict_order hasc d).sorted
  refine (ConcatIter.simulation hsorted).iterates ⟨hiters.length_eq, fun {i it l} hit hl => ?_⟩
  obtain ⟨hlt, rfl⟩ := List.getElem?_eq_some_iff.mp hit
  obtain ⟨hlt', rfl⟩ := List.getElem?_eq_some_iff.mp hl
  exact (List.forall₂_iff_get.mp hiters).2 i hlt hlt'

/-- An empty sequence between two others. -/
theorem concatIter_iterates_gap :
    Cursor.Iterates (fun d => d.order [([1], .put [7]), ([2], .delete)])
      (ConcatIter.new [Lsm.memtableOf [([1], .put [7])] (by decide), Lsm.memtableOf [] (by decide),
        Lsm.memtableOf [([2], .delete)] (by decide)]) :=
  concatIter_iterates _ [[([1], Entry.put [7])], [], [([2], Entry.delete)]]
    (.cons (Lsm.OwnedMemTableIter.iterates _) (.cons (Lsm.OwnedMemTableIter.iterates _)
      (.cons (Lsm.OwnedMemTableIter.iterates _) .nil))) (by decide)

end Todb
