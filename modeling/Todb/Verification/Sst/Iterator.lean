import Todb.Verification.Sst.IndexTree

/-! # The SST iterator

The positions of an `SstIter` in the sequence of all entries, how its operations move
them, and what a freshly constructed iterator does on a well-formed file. -/

namespace Todb

open Library Direction

variable {ρ : Type} [BlockReader ρ]

/-- A well-formed tree with `h + 1` index levels and strictly ascending keys. -/
structure WellFormedTree (reader : ρ) (h : ℕ) (root : Position) (ls : List Leaf) : Prop where
  subtree : Subtree reader (h + 1) root ls
  ascending : Ascending (entriesOf ls)

namespace SstIter

variable {fuel : ℕ}

/-- The iterator stands at position `p` of the sequence of all entries. Past the end it has
dropped its data block, or keeps an exhausted one under an empty index stack. -/
inductive At (reader : ρ) (h : ℕ) (root : Position) (ls : List Leaf) :
    SstIter fuel ρ → Option ℕ → Prop
  | entry {it : SstIter fuel ρ} {j m : ℕ} {leaf : Leaf} {data : DataBlockCursor}
      (hreader : it.reader = reader) (hindex : it.indexIter.PointsAt reader h root ls j)
      (hleaf : ls[j]? = some leaf) (hdata : it.dataIter = some data)
      (hat : data.At leaf.2 (some m)) :
      At reader h root ls it (some (offsetOf (ls.map Prod.snd) j + m))
  | done {it : SstIter fuel ρ} (hreader : it.reader = reader)
      (hindex : it.indexIter.Over reader h root) (hcurr : it.indexIter.currIterIdx = 0)
      (hdata : ∀ data, it.dataIter = some data → it.indexIter.indexIters = [] ∧
        ∃ es, data.At es none) :
      At reader h root ls it none

variable {reader : ρ} {h : ℕ} {root : Position} {ls : List Leaf} {it : SstIter fuel ρ}
  {p : Option ℕ}

/-! ## Reading -/

omit [BlockReader ρ] in
theorem getElem?_entries {j : ℕ} {leaf : Leaf} (hleaf : ls[j]? = some leaf) :
    (ls.map Prod.snd)[j]? = some leaf.2 := by
  simp [hleaf]

theorem At.read (hat : At reader h root ls it p) :
    it.valid = p.isSome ∧ it.key = .ok ((entryAt (entriesOf ls) p).map Prod.fst) ∧
      it.value = .ok ((entryAt (entriesOf ls) p).map Prod.snd) := by
  cases hat with
  | @entry j m leaf data hreader hindex hleaf hdata hat =>
      have hm := hat.inside m rfl
      obtain ⟨hj, hget⟩ := List.getElem?_eq_some_iff.mp (getElem?_entries hleaf)
      have hentry : (entriesOf ls)[offsetOf (ls.map Prod.snd) j + m]? = leaf.2[m]? := by
        have hflat := getElem?_flatten_offsetOf (ls.map Prod.snd) j m hj (by rwa [hget])
        rw [entriesOf, hflat, List.getElem?_eq_getElem hm]
        simp only [hget]
      have hvalid : Cursor.valid data = true := hat.valid_eq
      refine ⟨by simp [valid, hdata, hvalid], ?_, ?_⟩
      · simp only [key, hdata, hat.key_eq, entryAt_some, hentry]
      · simp only [value, hdata, hat.value_eq, entryAt_some, hentry]
  | done hreader hindex hcurr hdata =>
      cases hcase : it.dataIter with
      | none => simp [valid, key, value, hcase]
      | some data =>
          obtain ⟨-, es, hat⟩ := hdata data hcase
          have hvalid : Cursor.valid data = false := hat.valid_eq
          have hkey := hat.key_eq
          have hvalue := hat.value_eq
          simp [valid, key, value, hcase, hvalid, hkey, hvalue]

theorem At.inside (hat : At reader h root ls it p) : Inside (entriesOf ls).length p := by
  cases hat with
  | @entry j m leaf data hreader hindex hleaf hdata hat =>
      intro i hi
      obtain rfl := Option.some.inj hi
      obtain ⟨hj, hget⟩ := List.getElem?_eq_some_iff.mp (getElem?_entries hleaf)
      exact offsetOf_add_lt _ j m hj (by rw [hget]; exact hat.inside m rfl)
  | done => intro i hi; cases hi

/-! ## Loading a data block -/

section Load

variable (htree : WellFormedTree reader h root ls)

include htree

theorem leaf_block {j : ℕ} {leaf : Leaf} (hleaf : ls[j]? = some leaf) :
    leaf.2 ≠ [] ∧ Ascending leaf.2 ∧
      ∃ block, BlockReader.readBlock reader leaf.1 = .ok block ∧ DataBlock block leaf.2 := by
  obtain ⟨hj, rfl⟩ := List.getElem?_eq_some_iff.mp hleaf
  obtain ⟨hne, hblock⟩ := htree.subtree.forall_leaves ls[j] (List.getElem_mem hj)
  have hasc : Ascending ls[j].2 :=
    (List.pairwise_flatten.mp htree.ascending).1 ls[j].2 (List.mem_map_of_mem (List.getElem_mem hj))
  exact ⟨hne, hasc, hblock⟩

theorem loadDataBlock_first (d : Direction) {j : ℕ} (hreader : it.reader = reader)
    (hindex : it.indexIter.PointsAt reader h root ls j) :
    ∃ leaf data m, ls[j]? = some leaf ∧ it.loadDataBlock (Cursor.seekToFirst d) = .ok data ∧
      data.At leaf.2 (some m) ∧ d.first leaf.2.length = some m := by
  obtain ⟨-, leaf, hleaf, hvalue⟩ := hindex.value_eq
  obtain ⟨hne, -, block, hread, hblock⟩ := leaf_block htree hleaf
  obtain ⟨iter, data, hnew, hplace, hat⟩ := hblock.load_first d
  obtain ⟨m, hm, -⟩ := first_eq_some d (List.length_pos_iff.mpr hne)
  rw [hm] at hat
  refine ⟨leaf, data, m, hleaf, ?_, hat, hm⟩
  simp [loadDataBlock, hvalue, hreader, hread, hnew, hplace, bind, Except.bind]

theorem loadDataBlock_target (d : Direction) (t : Bytes) {j : ℕ} (hreader : it.reader = reader)
    (hindex : it.indexIter.PointsAt reader h root ls j) :
    ∃ leaf data, ls[j]? = some leaf ∧ it.loadDataBlock (Cursor.seek d · t) = .ok data ∧
      data.At leaf.2 (d.target leaf.2 t) := by
  obtain ⟨-, leaf, hleaf, hvalue⟩ := hindex.value_eq
  obtain ⟨-, hasc, block, hread, hblock⟩ := leaf_block htree hleaf
  obtain ⟨iter, data, hnew, hplace, hat⟩ := hblock.load_target hasc d t
  refine ⟨leaf, data, hleaf, ?_, hat⟩
  simp [loadDataBlock, hvalue, hreader, hread, hnew, hplace, bind, Except.bind]

end Load

/-! ## Stepping -/

section Next

variable {d : Direction} {data data' : DataBlockCursor} {tree : IndexTreeIter ρ}

theorem next_within (hdata : it.dataIter = some data) (hnext : Cursor.next d data = .ok data')
    (hvalid : Cursor.valid data' = true) : it.next d = .ok (it.withData data') := by
  simp [SstIter.next, hdata, hnext, withData, hvalid]

theorem next_end (hdata : it.dataIter = some data) (hnext : Cursor.next d data = .ok data')
    (hvalid : Cursor.valid data' = false)
    (hindex : IndexTreeIter.innerNext d it.indexIter = .ok tree) (htree : tree.valid = false) :
    it.next d = .ok ((it.withData data').withIndex tree) := by
  simp [SstIter.next, hdata, hnext, withData, hvalid, hindex, withIndex, htree]

theorem next_across {data'' : DataBlockCursor} (hdata : it.dataIter = some data)
    (hnext : Cursor.next d data = .ok data') (hvalid : Cursor.valid data' = false)
    (hindex : IndexTreeIter.innerNext d it.indexIter = .ok tree) (htree : tree.valid = true)
    (hload : ((it.withData data').withIndex tree).loadDataBlock (Cursor.seekToFirst d) =
      .ok data'') :
    it.next d = .ok (((it.withData data').withIndex tree).withData data'') := by
  simp only [withData, withIndex] at hload
  simp [SstIter.next, hdata, hnext, withData, hvalid, hindex, withIndex, htree, hload]

end Next

theorem At.next (htree : WellFormedTree reader h root ls) (d : Direction)
    (hat : At reader h root ls it p) :
    ∃ it', it.next d = .ok it' ∧ At reader h root ls it' (d.step (entriesOf ls).length p) := by
  cases hat with
  | @entry j m leaf data hreader hindex hleaf hdata hat =>
      have hm := hat.inside m rfl
      have hblock := getElem?_entries hleaf
      obtain ⟨data', hnext, hat'⟩ := hat.next d
      have hvalid : Cursor.valid data' = (d.step leaf.2.length (some m)).isSome := hat'.valid_eq
      cases hstep : d.step leaf.2.length (some m) with
      | some m' =>
          rw [hstep] at hat' hvalid
          refine ⟨_, next_within hdata hnext hvalid, ?_⟩
          rw [entriesOf, step_flatten_inside d hblock hm hstep]
          exact .entry hreader hindex hleaf rfl hat'
      | none =>
          rw [hstep] at hat' hvalid
          cases hup : d.step ls.length (some j) with
          | some j' =>
              obtain ⟨tree, hmove, hpoints⟩ :=
                IndexTreeIter.innerNext_step d hindex htree.ascending hup
              obtain ⟨leaf', data'', m', hleaf', hload, hat'', hfirst⟩ :=
                loadDataBlock_first htree d
                  (show ((it.withData data').withIndex tree).reader = reader from hreader) hpoints
              refine ⟨_, next_across hdata hnext hvalid hmove hpoints.value_eq.1 hload, ?_⟩
              rw [entriesOf, step_flatten_across d hblock hm hstep (by simpa using hup)
                (getElem?_entries hleaf') hfirst]
              exact .entry hreader hpoints hleaf' rfl hat''
          | none =>
              have hmove := IndexTreeIter.innerNext_end d hindex htree.ascending hup
              refine ⟨_, next_end hdata hnext hvalid hmove (IndexTreeIter.valid_nil rfl), ?_⟩
              rw [entriesOf, step_flatten_end d hblock hm hstep (by simpa using hup)]
              refine .done hreader (hindex.toOver.update [] 0) rfl ?_
              rintro data₀ hdata₀
              obtain rfl := Option.some.inj hdata₀
              exact ⟨rfl, leaf.2, hat'⟩
  | done hreader hindex hcurr hdata =>
      cases hcase : it.dataIter with
      | none => exact ⟨it, by simp [SstIter.next, hcase], .done hreader hindex hcurr hdata⟩
      | some data =>
          obtain ⟨hnil, es, hat⟩ := hdata data hcase
          obtain ⟨data', hnext, hat'⟩ := hat.next d
          refine ⟨_, next_end hcase hnext hat'.valid_eq
            (IndexTreeIter.innerNext_nil d hindex hnil) (IndexTreeIter.valid_nil hnil),
            .done hreader hindex hcurr ?_⟩
          rintro data₀ hdata₀
          obtain rfl := Option.some.inj hdata₀
          exact ⟨hnil, es, hat'⟩

/-! ## Repositioning with a depth index of zero -/

theorem seekToFirst_of_zero (htree : WellFormedTree reader h root ls) (d : Direction)
    (hreader : it.reader = reader) (hover : it.indexIter.Over reader h root)
    (hcurr : it.indexIter.currIterIdx = 0) :
    ∃ it', it.seekToFirst d = .ok it' ∧
      At reader h root ls it' (d.first (entriesOf ls).length) := by
  obtain ⟨j, hj, -⟩ := first_eq_some d (List.length_pos_iff.mpr htree.subtree.ne_nil)
  obtain ⟨tree, hseek, hpoints⟩ := IndexTreeIter.innerSeekToFirst_of_zero d hover
    htree.subtree htree.ascending hcurr hj
  obtain ⟨leaf, data, m, hleaf, hload, hat, hfirst⟩ :=
    loadDataBlock_first htree d (show (it.withIndex tree).reader = reader from hreader) hpoints
  have hvalid : (it.withIndex tree).indexIter.valid = true := hpoints.value_eq.1
  refine ⟨(it.withIndex tree).withData data, ?_, ?_⟩
  · simp [SstIter.seekToFirst, hseek, hvalid, hload]
  · rw [entriesOf, first_flatten d (by simpa using hj) (getElem?_entries hleaf) hfirst]
    exact .entry hreader hpoints hleaf rfl hat

/-- The data block `lowerLeaf` selects, in terms of its keys and its neighbours'. -/
theorem lowerLeaf_spec (htree : WellFormedTree reader h root ls) {t : Bytes} {j : ℕ}
    (hsel : lowerLeaf t ls = some j) {leaf : Leaf} (hleaf : ls[j]? = some leaf) :
    (∀ block ∈ (ls.map Prod.snd).take j, ∀ x ∈ block, x.1 < t) ∧
      ∃ m, Direction.forward.target leaf.2 t = some m := by
  simp only [lowerLeaf, Option.ite_none_right_eq_some, Option.some.injEq] at hsel
  obtain ⟨hlt, rfl⟩ := hsel
  have hinitial : Initial (leafBelow t) ls := by
    refine List.pairwise_iff_getElem.mpr ?_
    intro i k hi hk hik hbelow
    rw [leafBelow_iff] at hbelow ⊢
    intro x hx
    obtain ⟨y, l, hcons⟩ := List.exists_cons_of_ne_nil
      (htree.subtree.forall_leaves ls[k] (List.getElem_mem hk)).1
    have hlt := List.pairwise_iff_getElem.mp (List.pairwise_flatten.mp htree.ascending).2 i k
      (by simpa using hi) (by simpa using hk) hik x (by simpa using hx) y (by simp [hcons])
    exact hlt.trans (hbelow y (by simp [hcons]))
  obtain ⟨hj, rfl⟩ := List.getElem?_eq_some_iff.mp hleaf
  refine ⟨?_, ?_⟩
  · intro block hblock x hx
    obtain ⟨i, hi, rfl⟩ := List.getElem_of_mem hblock
    rw [List.length_take, List.length_map] at hi
    rw [List.getElem_take, List.getElem_map] at hx
    exact leafBelow_iff.mp ((hinitial.getElem_iff i (by omega)).mpr (by omega)) x hx
  · by_contra hnone
    push Not at hnone
    have htarget := Option.eq_none_iff_forall_ne_some.mpr hnone
    have hbelow := leafBelow_iff.mpr (target_forward_eq_none.mp htarget)
    have hself := (hinitial.getElem_iff _ hj).mp hbelow
    omega

theorem lowerLeaf_eq_none {t : Bytes} :
    lowerLeaf t ls = none ↔ ∀ e ∈ entriesOf ls, e.1 < t := by
  have hle : ls.countP (leafBelow t) ≤ ls.length := List.countP_le_length
  simp only [lowerLeaf, ite_eq_right_iff, reduceCtorEq, imp_false, not_lt]
  rw [hle.ge_iff_eq, List.countP_eq_length]
  constructor
  · intro hall e he
    obtain ⟨leaf, hleaf, he⟩ := mem_entriesOf.mp he
    exact leafBelow_iff.mp (hall leaf hleaf) e he
  · intro hall leaf hleaf
    exact leafBelow_iff.mpr (fun e he => hall e (mem_entriesOf.mpr ⟨leaf, hleaf, he⟩))

theorem seek_forward_of_zero (htree : WellFormedTree reader h root ls) (t : Bytes)
    (hreader : it.reader = reader) (hover : it.indexIter.Over reader h root)
    (hcurr : it.indexIter.currIterIdx = 0) :
    ∃ it', it.seek .forward t = .ok it' ∧
      At reader h root ls it' (Direction.forward.target (entriesOf ls) t) := by
  cases hsel : lowerLeaf t ls with
  | none =>
      obtain ⟨tree, hlocate, hover', hcurr', hinvalid⟩ := IndexTreeIter.locate_past t hover
        htree.subtree htree.ascending hcurr hsel
      refine ⟨{ it.withIndex tree with dataIter := none }, ?_, ?_⟩
      · simp [SstIter.seek, IndexTreeIter.seek, hlocate, withIndex, hinvalid]
      · rw [target_forward_eq_none.mpr (lowerLeaf_eq_none.mp hsel)]
        exact .done hreader hover' hcurr' (by simp)
  | some j =>
      obtain ⟨tree, hlocate, hpoints⟩ := IndexTreeIter.locate_of_zero t hover htree.subtree
        htree.ascending hcurr hsel
      obtain ⟨leaf, data, hleaf, hload, hat⟩ :=
        loadDataBlock_target htree .forward t
          (show (it.withIndex tree).reader = reader from hreader) hpoints
      obtain ⟨hbefore, m, hm⟩ := lowerLeaf_spec htree hsel hleaf
      rw [hm] at hat
      have hvalid : (it.withIndex tree).indexIter.valid = true := hpoints.value_eq.1
      refine ⟨(it.withIndex tree).withData data, ?_, ?_⟩
      · simp [SstIter.seek, IndexTreeIter.seek, hlocate, hvalid, hload]
      · have htarget := htree.ascending.target_forward_flatten (getElem?_entries hleaf) hbefore hm
        rw [entriesOf, htarget]
        exact .entry hreader hpoints hleaf rfl hat

/-- The data block reverse `seek` starts from: everything before it is below the target
and everything after it above. -/
theorem reverse_start (htree : WellFormedTree reader h root ls) (t : Bytes)
    {tree : IndexTreeIter ρ} (hover : tree.Over reader h root) (hcurr : tree.currIterIdx = 0) :
    ∃ tree' j, IndexTreeIter.seek .reverse tree t = .ok tree' ∧
      tree'.PointsAt reader h root ls j ∧
      (∀ block ∈ (ls.map Prod.snd).take j, ∀ x ∈ block, x.1 < t) ∧
      (∀ block ∈ (ls.map Prod.snd).drop (j + 1), ∀ x ∈ block, t < x.1) := by
  cases hsel : lowerLeaf t ls with
  | none =>
      obtain ⟨mid, hlocate, hover', hcurr', hinvalid⟩ := IndexTreeIter.locate_past t hover
        htree.subtree htree.ascending hcurr hsel
      have hpos : 0 < ls.length := List.length_pos_iff.mpr htree.subtree.ne_nil
      obtain ⟨tree', hseek, hpoints⟩ := IndexTreeIter.innerSeekToFirst_of_zero .reverse hover'
        htree.subtree htree.ascending hcurr' (if_pos hpos)
      refine ⟨tree', ls.length - 1, ?_, hpoints, ?_, ?_⟩
      · simp [IndexTreeIter.seek, hlocate, hinvalid, hseek]
      · intro block hblock x hx
        refine lowerLeaf_eq_none.mp hsel x ?_
        exact List.mem_flatten.mpr ⟨block, List.mem_of_mem_take hblock, hx⟩
      · rw [List.drop_eq_nil_of_le (by simp; omega)]
        simp
  | some j =>
      obtain ⟨tree', hlocate, hpoints⟩ := IndexTreeIter.locate_of_zero t hover htree.subtree
        htree.ascending hcurr hsel
      obtain ⟨hvalid, leaf, hleaf, -⟩ := hpoints.value_eq
      obtain ⟨hbefore, m, hm⟩ := lowerLeaf_spec htree hsel hleaf
      refine ⟨tree', j, by simp [IndexTreeIter.seek, hlocate, hvalid], hpoints, hbefore, ?_⟩
      intro block hblock x hx
      have hy : ∃ y ∈ leaf.2, t ≤ y.1 := by
        by_contra hall
        push Not at hall
        rw [target_forward_eq_none.mpr hall] at hm
        cases hm
      obtain ⟨y, hy, hty⟩ := hy
      exact hty.trans_lt
        ((htree.ascending.lt_of_blocks (getElem?_entries hleaf)).2 block hblock x hx y hy)

/-- The gap loop stops at the first data block with a key up to the target. -/
theorem reverseSeekLoop_hit (htree : WellFormedTree reader h root ls) (t : Bytes) {j : ℕ}
    {leaf : Leaf} (hreader : it.reader = reader)
    (hpoints : it.indexIter.PointsAt reader h root ls j) (hleaf : ls[j]? = some leaf)
    (hafter : ∀ block ∈ (ls.map Prod.snd).drop (j + 1), ∀ x ∈ block, t < x.1)
    (hhit : Direction.reverse.target leaf.2 t ≠ none) (n : ℕ) :
    ∃ it', reverseSeekLoop t (n + 1) it = .ok it' ∧
      At reader h root ls it' (Direction.reverse.target (entriesOf ls) t) := by
  obtain ⟨m, hm⟩ := Option.ne_none_iff_exists'.mp hhit
  obtain ⟨leaf', data, hleaf', hload, hat⟩ := loadDataBlock_target htree .reverse t hreader hpoints
  obtain rfl := Option.some.inj (hleaf.symm.trans hleaf')
  rw [hm] at hat
  have hvalid : Cursor.valid data = true := hat.valid_eq
  refine ⟨it.withData data, ?_, ?_⟩
  · simp [reverseSeekLoop, hpoints.value_eq.1, hload, hvalid]
  · have htarget := htree.ascending.target_reverse_flatten (getElem?_entries hleaf) hafter hm
    rw [entriesOf, htarget]
    exact .entry hreader hpoints hleaf rfl hat

/-- A data block whose keys all exceed the target sends the loop one block back. -/
theorem reverseSeekLoop_miss (htree : WellFormedTree reader h root ls) (t : Bytes) {j : ℕ}
    {leaf : Leaf} (hreader : it.reader = reader)
    (hpoints : it.indexIter.PointsAt reader h root ls j) (hleaf : ls[j]? = some leaf)
    (hmiss : Direction.reverse.target leaf.2 t = none) {tree : IndexTreeIter ρ}
    (hmove : IndexTreeIter.innerNext .reverse it.indexIter = .ok tree) (n : ℕ) :
    reverseSeekLoop t (n + 1) it = reverseSeekLoop t n (it.withIndex tree) := by
  obtain ⟨leaf', data, hleaf', hload, hat⟩ := loadDataBlock_target htree .reverse t hreader hpoints
  obtain rfl := Option.some.inj (hleaf.symm.trans hleaf')
  rw [hmiss] at hat
  have hvalid : Cursor.valid data = false := hat.valid_eq
  simp [reverseSeekLoop, hpoints.value_eq.1, hload, hvalid, hmove]

theorem seek_reverse_of_zero (htree : WellFormedTree reader h root ls) (hfuel : 2 ≤ fuel)
    (t : Bytes) (hreader : it.reader = reader) (hover : it.indexIter.Over reader h root)
    (hcurr : it.indexIter.currIterIdx = 0) :
    ∃ it', it.seek .reverse t = .ok it' ∧
      At reader h root ls it' (Direction.reverse.target (entriesOf ls) t) := by
  obtain ⟨n, rfl⟩ : ∃ n, fuel = n + 2 := ⟨fuel - 2, by omega⟩
  obtain ⟨tree, j, hseek, hpoints, hbefore, hafter⟩ := reverse_start htree t hover hcurr
  obtain ⟨-, leaf, hleaf, -⟩ := hpoints.value_eq
  have hreader' : (it.withIndex tree).reader = reader := hreader
  have hstart : it.seek .reverse t = reverseSeekLoop t (n + 2) (it.withIndex tree) := by
    simp [SstIter.seek, hseek]
  rw [hstart]
  by_cases hhit : Direction.reverse.target leaf.2 t = none
  · have habove := target_reverse_eq_none.mp hhit
    have hblock := getElem?_entries hleaf
    cases j with
    | zero =>
        have hmove := IndexTreeIter.innerNext_end .reverse hpoints htree.ascending rfl
        rw [reverseSeekLoop_miss htree t hreader' hpoints hleaf hhit hmove]
        refine ⟨_, by
          simp only [reverseSeekLoop, withIndex, IndexTreeIter.valid_nil]
          exact rfl, ?_⟩
        have hnone : Direction.reverse.target (entriesOf ls) t = none := by
          rw [target_reverse_eq_none]
          intro e he
          obtain ⟨block, hmem, he⟩ := List.mem_flatten.mp he
          obtain ⟨i, hi, rfl⟩ := List.getElem_of_mem hmem
          cases i with
          | zero =>
              obtain ⟨_, hget⟩ := List.getElem?_eq_some_iff.mp hblock
              exact habove e (hget ▸ he)
          | succ i =>
              refine hafter _ ?_ e he
              rw [List.mem_iff_getElem]
              exact ⟨i, by simp at hi ⊢; omega, by simp⟩
        rw [hnone]
        exact .done hreader (hpoints.toOver.update [] 0) rfl (by simp)
    | succ j =>
        obtain ⟨tree', hmove, hpoints'⟩ := IndexTreeIter.innerNext_step .reverse hpoints
          htree.ascending (show Direction.reverse.step ls.length (some (j + 1)) = some j by simp [step])
        rw [reverseSeekLoop_miss htree t hreader' hpoints hleaf hhit hmove]
        obtain ⟨-, leaf', hleaf', -⟩ := hpoints'.value_eq
        refine reverseSeekLoop_hit htree t
          (show ((it.withIndex tree).withIndex tree').reader = reader from hreader) hpoints' hleaf' ?_ ?_ n
        · intro block hmem
          obtain ⟨hj, hget⟩ := List.getElem?_eq_some_iff.mp hblock
          rw [List.drop_eq_getElem_cons hj, hget] at hmem
          rcases List.mem_cons.mp hmem with rfl | hmem
          · exact habove
          · exact hafter block hmem
        · obtain ⟨e, l, hcons⟩ := List.exists_cons_of_ne_nil (leaf_block htree hleaf').1
          intro hnone
          have hlt := hbefore leaf'.2 (by
            rw [List.mem_iff_getElem?]
            exact ⟨j, by rw [List.getElem?_take_of_lt (by omega), getElem?_entries hleaf']⟩) e
            (by simp [hcons])
          exact absurd (target_reverse_eq_none.mp hnone e (by simp [hcons])) (not_lt.mpr hlt.le)
  · exact reverseSeekLoop_hit htree t hreader' hpoints hleaf hafter hhit (n + 1)

theorem seek_of_zero (htree : WellFormedTree reader h root ls) (hfuel : 2 ≤ fuel)
    (d : Direction) (t : Bytes) (hreader : it.reader = reader)
    (hover : it.indexIter.Over reader h root) (hcurr : it.indexIter.currIterIdx = 0) :
    ∃ it', it.seek d t = .ok it' ∧ At reader h root ls it' (d.target (entriesOf ls) t) := by
  cases d with
  | forward => exact seek_forward_of_zero htree t hreader hover hcurr
  | reverse => exact seek_reverse_of_zero htree hfuel t hreader hover hcurr

/-! ## Fresh iterators -/

/-- Stepping through the entries from a position. -/
theorem stepping_at (htree : WellFormedTree reader h root ls) :
    Cursor.Stepping (fun d (it : SstIter fuel ρ) l =>
      ∃ p, At reader h root ls it p ∧ l = d.rest (entriesOf ls) p) where
  read := by
    rintro d it l ⟨p, hat, rfl⟩
    obtain ⟨hvalid, hkey, hvalue⟩ := hat.read
    have hhead := head?_rest d (entriesOf ls) hat.inside
    refine ⟨?_, by rw [hhead]; exact hkey, by rw [hhead]; exact hvalue⟩
    change it.valid = _
    rw [hvalid, ← isSome_entryAt hat.inside, ← hhead]
    cases d.rest (entriesOf ls) p <;> rfl
  next := by
    rintro d it l ⟨p, hat, rfl⟩
    obtain ⟨it', hnext, hat'⟩ := hat.next htree d
    exact ⟨it', hnext, _, hat', (rest_step d (entriesOf ls) hat.inside).symm⟩

/-! ## Files without index levels -/

/-- An iterator over an empty file: there is no index block to descend into. -/
structure Flat (it : SstIter fuel ρ) : Prop where
  treeHeight_le : it.indexIter.treeHeight ≤ 1
  indexIters_eq : it.indexIter.indexIters = []
  dataIter_eq : it.dataIter = none

omit [BlockReader ρ] in
theorem Flat.new {footer : SstFooter} (hheight : footer.treeHeight = 0) :
    Flat (SstIter.new fuel reader footer) :=
  ⟨by simp [SstIter.new, IndexTreeIter.new, hheight], rfl, rfl⟩

theorem Flat.seekToFirst (hflat : Flat it) (d : Direction) : it.seekToFirst d = .ok it := by
  have hvalid := IndexTreeIter.valid_nil hflat.indexIters_eq
  simp [SstIter.seekToFirst, IndexTreeIter.innerSeekToFirst, hflat.treeHeight_le, withIndex, hvalid]

theorem Flat.seek (hflat : Flat it) (hfuel : 1 ≤ fuel) (d : Direction) (t : Bytes) :
    it.seek d t = .ok it := by
  obtain ⟨n, rfl⟩ : ∃ n, fuel = n + 1 := ⟨fuel - 1, by omega⟩
  have hvalid := IndexTreeIter.valid_nil hflat.indexIters_eq
  have hdata : { it with dataIter := none } = it := by
    rw [← hflat.dataIter_eq]
  cases d with
  | forward =>
      simp [SstIter.seek, IndexTreeIter.seek, IndexTreeIter.locate, hflat.treeHeight_le, withIndex,
        hvalid, hdata]
  | reverse =>
      simp [SstIter.seek, IndexTreeIter.seek, IndexTreeIter.locate, hflat.treeHeight_le, withIndex,
        hvalid, IndexTreeIter.innerSeekToFirst, reverseSeekLoop, hdata]

theorem Flat.next (hflat : Flat it) (d : Direction) : it.next d = .ok it := by
  simp [SstIter.next, hflat.dataIter_eq]

theorem stepping_flat : Cursor.Stepping (fun _ (it : SstIter fuel ρ) l => Flat it ∧ l = []) where
  read := by
    rintro d it l ⟨hflat, rfl⟩
    have hdata := hflat.dataIter_eq
    refine ⟨?_, ?_, ?_⟩
    · change it.valid = _
      simp [valid, hdata]
    · change it.key = _
      simp [key, hdata]
    · change it.value = _
      simp [value, hdata]
  next := by
    rintro d it l ⟨hflat, rfl⟩
    exact ⟨it, hflat.next d, hflat, rfl⟩

end SstIter

/-- A well-formed SST that holds `es`: the empty file, or a tree of height at least two. -/
inductive WellFormedSst (reader : ρ) (footer : SstFooter) : List (Bytes × Entry Bytes) → Prop
  | empty (hheight : footer.treeHeight = 0) : WellFormedSst reader footer []
  | tree {h : ℕ} {ls : List Leaf} (hheight : footer.treeHeight.toNat = h + 2)
      (htree : WellFormedTree reader h footer.rootIndexBlockPosition ls) :
      WellFormedSst reader footer (entriesOf ls)

theorem WellFormedSst.cases {reader : ρ} {footer : SstFooter}
    {es : List (Bytes × Entry Bytes)} (hsst : WellFormedSst reader footer es) :
    footer.treeHeight = 0 ∧ es = [] ∨ ∃ h ls, footer.treeHeight.toNat = h + 2 ∧
      WellFormedTree reader h footer.rootIndexBlockPosition ls ∧ entriesOf ls = es := by
  cases hsst with
  | empty hheight => exact .inl ⟨hheight, rfl⟩
  | tree hheight htree => exact .inr ⟨_, _, hheight, htree, rfl⟩

/-- A fresh forward scan of a well-formed file yields its entries. -/
theorem WellFormedSst.yields {reader : ρ} {footer : SstFooter}
    {es : List (Bytes × Entry Bytes)} (hsst : WellFormedSst reader footer es) (fuel : ℕ) :
    ∃ it, (SstIter.new fuel reader footer).seekToFirst .forward = .ok it ∧
      Cursor.Yields .forward it es := by
  cases hsst with
  | empty hheight =>
      have hflat : (SstIter.new fuel reader footer).Flat := .new hheight
      exact ⟨_, hflat.seekToFirst _, SstIter.stepping_flat.yields ⟨hflat, rfl⟩⟩
  | @tree h ls hheight htree =>
      have hover : (SstIter.new fuel reader footer).indexIter.Over reader h
          footer.rootIndexBlockPosition := ⟨rfl, hheight, rfl⟩
      obtain ⟨it, hseek, hat⟩ := SstIter.seekToFirst_of_zero htree .forward rfl hover rfl
      exact ⟨it, hseek, (SstIter.stepping_at htree).yields ⟨_, hat, (rest_first .forward _).symm⟩⟩

theorem WellFormedSst.ascending {reader : ρ} {footer : SstFooter}
    {es : List (Bytes × Entry Bytes)} (hsst : WellFormedSst reader footer es) : Ascending es := by
  cases hsst with
  | empty hheight => exact .nil
  | tree hheight htree => exact htree.ascending

/-- A fresh search in a well-formed file. -/
theorem WellFormedSst.yields_seek {reader : ρ} {footer : SstFooter}
    {es : List (Bytes × Entry Bytes)} (hsst : WellFormedSst reader footer es) {fuel : ℕ}
    (hfuel : 2 ≤ fuel) (d : Direction) (target : Bytes) :
    ∃ it, (SstIter.new fuel reader footer).seek d target = .ok it ∧
      Cursor.Yields d it ((d.order es).dropWhile (Cursor.before d target)) := by
  cases hsst with
  | empty hheight =>
      have hflat : (SstIter.new fuel reader footer).Flat := .new hheight
      refine ⟨_, hflat.seek (by omega) d target, SstIter.stepping_flat.yields ⟨hflat, ?_⟩⟩
      cases d <;> rfl
  | @tree h ls hheight htree =>
      have hover : (SstIter.new fuel reader footer).indexIter.Over reader h
          footer.rootIndexBlockPosition := ⟨rfl, hheight, rfl⟩
      obtain ⟨it, hseek, hat⟩ := SstIter.seek_of_zero htree hfuel d target rfl hover rfl
      exact ⟨it, hseek, (SstIter.stepping_at htree).yields
        ⟨_, hat, (htree.ascending.rest_target d target).symm⟩⟩

end Todb
