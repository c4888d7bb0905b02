import Todb.Model.Lsm.Scan

/-! # Memtable cursors

A cursor over a memtable that does not change runs through its entries. -/

namespace Todb.Lsm

open Library

namespace OwnedMemTableIter

variable {d : Direction} {it : OwnedMemTableIter} {l : List (Bytes × Entry Bytes)}

theorem entries_eq (d : Direction) (it : OwnedMemTableIter) :
    it.entries d = d.order it.map.entries := by
  cases d <;> rfl

theorem strict_entries (d : Direction) (it : OwnedMemTableIter) : d.Strict (it.entries d) :=
  it.entries_eq d ▸ Direction.strict_order it.map.ascending d

/-- The cursor has cloned the first of the entries it has left. -/
def At (map : SortedMap Bytes (Entry Bytes)) (d : Direction) (it : OwnedMemTableIter)
    (l : List (Bytes × Entry Bytes)) : Prop :=
  it.map = map ∧ it.item = l.head? ∧ ∃ passed, it.entries d = passed ++ l

theorem At.next {map : SortedMap Bytes (Entry Bytes)} (h : At map d it l) :
    At map d (it.next d) l.tail := by
  obtain ⟨hmap, hitem, passed, hentries⟩ := h
  cases l with
  | nil => exact ⟨hmap, by simp [OwnedMemTableIter.next, hitem], passed, hentries⟩
  | cons e l =>
      have hstrict := hentries ▸ it.strict_entries d
      obtain ⟨-, hafter, hbefore⟩ := List.pairwise_append.mp hstrict
      refine ⟨hmap, ?_, passed ++ [e], hentries.trans (by simp)⟩
      simp only [OwnedMemTableIter.next, hitem, List.head?_cons, Option.bind_some, hentries,
        List.tail_cons]
      rw [List.find?_append, List.find?_eq_none.mpr, Option.none_or, List.find?_cons_of_neg]
      · cases l with
        | nil => rfl
        | cons e' l =>
            exact List.find?_cons_of_pos (by
              simpa using List.rel_of_pairwise_cons hafter List.mem_cons_self)
      · simpa using d.comesBefore_irrefl e.1
      · intro e' he'
        simpa using (hbefore e' he' e List.mem_cons_self).asymm

theorem simulation (map : SortedMap Bytes (Entry Bytes)) :
    Cursor.Simulation (fun d => d.order map.entries) (fun it : OwnedMemTableIter => it.map = map)
      (At map) where
  inv_of_at h := h.1
  read := by
    rintro d it l ⟨-, hitem, -⟩
    simp only [Cursor.valid, Cursor.key, Cursor.value, hitem]
    cases l <;> simp
  next h := ⟨_, rfl, h.next⟩
  next_inv d h hnext := by
    obtain rfl := Ran.ok_inj.mp hnext
    exact h
  seekToFirst d h := by
    refine ⟨_, rfl, h, ?_, [], ?_⟩
    · simp [OwnedMemTableIter.seekToFirst, entries_eq, h]
    · exact h ▸ entries_eq d _
  seek d target h := by
    rename_i it
    have hsorted := (it.strict_entries d).sorted.filter_eq_dropWhile target
    have hentries : it.entries d = d.order map.entries := h ▸ it.entries_eq d
    refine ⟨_, rfl, h, ?_, it.entries d |>.takeWhile (Cursor.before d target), ?_⟩
    · rw [← hentries, List.head?_filter]
      simp [OwnedMemTableIter.seek, Direction.before_eq]
    · rw [← hentries, hsorted]
      exact List.takeWhile_append_dropWhile.symm

/-- Over a table that does not change. -/
theorem iterates (it : OwnedMemTableIter) : Cursor.Iterates (fun d => d.order it.map.entries) it :=
  (simulation it.map).iterates rfl

end OwnedMemTableIter

/-- A memtable cursor over the given entries. -/
def memtableOf (es : List (Bytes × Entry Bytes)) (h : Ascending es) : OwnedMemTableIter :=
  ⟨0, ⟨es, h⟩, none⟩

end Todb.Lsm
