import Todb.Library.Place

/-! # Maps as strictly ascending lists -/

namespace Todb.Library

open List

variable {κ ν : Type} [LinearOrder κ]

/-- Inserts or overwrites the entry of `k`. -/
def insertSorted (k : κ) (v : ν) : List (κ × ν) → List (κ × ν)
  | [] => [(k, v)]
  | e :: l =>
      if k < e.1 then (k, v) :: e :: l
      else if e.1 < k then e :: insertSorted k v l
      else (k, v) :: l

theorem mem_insertSorted_fst {k : κ} {v : ν} {l : List (κ × ν)} {e : κ × ν}
    (he : e ∈ insertSorted k v l) : e.1 = k ∨ e ∈ l := by
  induction l with
  | nil => exact .inl (congrArg Prod.fst (mem_singleton.mp he))
  | cons a l ih =>
      rw [insertSorted] at he
      split at he
      · rcases mem_cons.mp he with rfl | he
        · exact .inl rfl
        · exact .inr he
      · split at he
        · rcases mem_cons.mp he with rfl | he
          · exact .inr (by simp)
          · exact (ih he).imp_right (mem_cons_of_mem _)
        · rcases mem_cons.mp he with rfl | he
          · exact .inl rfl
          · exact .inr (mem_cons_of_mem _ he)

theorem mem_insertSorted {k : κ} {v : ν} {l : List (κ × ν)} (h : Ascending l) {e : κ × ν} :
    e ∈ insertSorted k v l ↔ e = (k, v) ∨ e.1 ≠ k ∧ e ∈ l := by
  induction l with
  | nil => simp [insertSorted]
  | cons a l ih =>
      obtain ⟨hhead, htail⟩ := pairwise_cons.mp h
      -- Keys of the tail differ from the new key as soon as the head's is not below it.
      have hne : ∀ {e}, k ≤ a.1 → e ∈ l → e.1 ≠ k := fun hle he =>
        (lt_of_le_of_lt hle (hhead _ he)).ne'
      rw [insertSorted]
      split
      · rename_i hlt
        constructor
        · intro he
          rcases mem_cons.mp he with rfl | he
          · exact .inl rfl
          · refine .inr ⟨?_, he⟩
            rcases mem_cons.mp he with rfl | he
            · exact hlt.ne'
            · exact hne hlt.le he
        · rintro (rfl | ⟨-, he⟩)
          · exact mem_cons_self
          · exact mem_cons_of_mem _ he
      · rename_i hge
        split
        · rename_i hgt
          rw [mem_cons, ih htail, mem_cons]
          constructor
          · rintro (rfl | rfl | ⟨hk, he⟩)
            · exact .inr ⟨hgt.ne, .inl rfl⟩
            · exact .inl rfl
            · exact .inr ⟨hk, .inr he⟩
          · rintro (rfl | ⟨hk, rfl | he⟩)
            · exact .inr (.inl rfl)
            · exact .inl rfl
            · exact .inr (.inr ⟨hk, he⟩)
        · rename_i hle
          have heq : k = a.1 := le_antisymm (not_lt.mp hle) (not_lt.mp hge)
          rw [mem_cons, mem_cons]
          constructor
          · rintro (rfl | he)
            · exact .inl rfl
            · exact .inr ⟨hne heq.le he, .inr he⟩
          · rintro (rfl | ⟨hk, rfl | he⟩)
            · exact .inl rfl
            · exact absurd heq.symm hk
            · exact .inr he

theorem Ascending.insertSorted {k : κ} {v : ν} {l : List (κ × ν)} (h : Ascending l) :
    Ascending (insertSorted k v l) := by
  induction l with
  | nil => exact pairwise_singleton _ _
  | cons a l ih =>
      obtain ⟨hhead, htail⟩ := pairwise_cons.mp h
      rw [Library.insertSorted]
      split
      · rename_i hlt
        refine pairwise_cons.mpr ⟨?_, h⟩
        intro e he
        rcases mem_cons.mp he with rfl | he
        · exact hlt
        · exact hlt.trans (hhead e he)
      · rename_i hge
        split
        · rename_i hgt
          refine pairwise_cons.mpr ⟨?_, ih htail⟩
          intro e he
          rcases mem_insertSorted_fst he with heq | he
          · exact heq ▸ hgt
          · exact hhead e he
        · rename_i hle
          refine pairwise_cons.mpr ⟨?_, htail⟩
          intro e he
          exact lt_of_le_of_lt (not_lt.mp hle) (hhead e he)

/-- A finite map: its entries in key order. -/
structure SortedMap (κ ν : Type) [LinearOrder κ] where
  entries : List (κ × ν)
  ascending : Ascending entries

namespace SortedMap

def empty : SortedMap κ ν := ⟨[], .nil⟩

def insert (m : SortedMap κ ν) (k : κ) (v : ν) : SortedMap κ ν :=
  ⟨insertSorted k v m.entries, m.ascending.insertSorted⟩

def len (m : SortedMap κ ν) : ℕ := m.entries.length

@[simp] theorem entries_empty : (empty : SortedMap κ ν).entries = [] := rfl

theorem mem_insert {m : SortedMap κ ν} {k : κ} {v : ν} {e : κ × ν} :
    e ∈ (m.insert k v).entries ↔ e = (k, v) ∨ e.1 ≠ k ∧ e ∈ m.entries :=
  mem_insertSorted m.ascending

/-- Inserting beyond the last key appends. -/
theorem entries_insert_of_forall_lt {m : SortedMap κ ν} {k : κ} (v : ν)
    (h : ∀ e ∈ m.entries, e.1 < k) : (m.insert k v).entries = m.entries ++ [(k, v)] := by
  change insertSorted k v m.entries = _
  generalize m.entries = l at h
  induction l with
  | nil => rfl
  | cons a l ih =>
      have ha := h a (by simp)
      rw [insertSorted, if_neg ha.not_gt, if_pos ha, ih fun e he => h e (mem_cons_of_mem _ he),
        cons_append]

/-- The map that a sequence of insertions leaves. -/
def ofList (writes : List (κ × ν)) : SortedMap κ ν :=
  writes.foldl (fun m e => m.insert e.1 e.2) .empty

/-- It has the last entry of every key. -/
theorem mem_ofList {writes : List (κ × ν)} {e : κ × ν} :
    e ∈ (ofList writes).entries ↔
      ∃ earlier later, writes = earlier ++ e :: later ∧ ∀ e' ∈ later, e'.1 ≠ e.1 := by
  induction writes using List.reverseRecOn with
  | nil => simp [ofList]
  | append_singleton writes last ih =>
      rw [ofList, List.foldl_append, List.foldl_cons, List.foldl_nil, mem_insert, ← ofList, ih]
      constructor
      · rintro (rfl | ⟨hne, earlier, later, rfl, hlater⟩)
        · exact ⟨writes, [], rfl, by simp⟩
        · refine ⟨earlier, later ++ [last], by simp, List.forall_mem_append.mpr ⟨hlater, ?_⟩⟩
          simpa using hne.symm
      · rintro ⟨earlier, later, heq, hlater⟩
        -- The entry is the one inserted last, or an earlier one that this one does not overwrite.
        rcases List.eq_nil_or_concat later with rfl | ⟨later, last', rfl⟩
        · obtain ⟨-, hlast⟩ := List.append_inj' heq rfl
          exact .inl (List.cons.inj hlast).1.symm
        · rw [List.concat_eq_append, ← List.cons_append, ← List.append_assoc] at heq
          obtain ⟨rfl, hlast⟩ := List.append_inj' heq rfl
          obtain rfl := (List.cons.inj hlast).1
          rw [List.concat_eq_append] at hlater
          obtain ⟨hlater, hne⟩ := List.forall_mem_append.mp hlater
          exact .inr ⟨fun heq => hne last (by simp) heq.symm, earlier, later, rfl, hlater⟩

end SortedMap

end Todb.Library
