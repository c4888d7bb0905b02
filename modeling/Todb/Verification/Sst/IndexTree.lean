import Todb.Verification.Sst.BlockCursor
import Todb.Model.Sst.SstIter

/-! # Traversal of the index tree

`Subtree` relates a block position to the data blocks below it. `PathAt` says that a
stack of level cursors points at one of these data blocks; descending establishes it and
stepping moves it to the neighbouring data block. -/

namespace Todb

open Library Direction

variable {ρ : Type} [BlockReader ρ]

/-! ## Well-formed trees -/

/-- A data block of the tree: its position and the entries it holds. -/
abbrev Leaf := Position × List (Bytes × Entry Bytes)

/-- The entries of a sequence of data blocks. -/
def entriesOf (ls : List Leaf) : List (Bytes × Entry Bytes) := (ls.map Prod.snd).flatten

def lastKeyOf (ls : List Leaf) : Option Bytes := (entriesOf ls).getLast?.map Prod.fst

/-- The block at `position` is the root of a subtree with `h` index levels whose data
blocks are `ls`. Every index entry carries the last key of its child's subtree. -/
def Subtree (reader : ρ) : ℕ → Position → List Leaf → Prop
  | 0, position, ls => ∃ block es, BlockReader.readBlock reader position = .ok block ∧
      DataBlock block es ∧ es ≠ [] ∧ ls = [(position, es)]
  | h + 1, position, ls => ∃ block children lss,
      BlockReader.readBlock reader position = .ok block ∧ IndexBlock block children ∧
      children ≠ [] ∧ ls = lss.flatten ∧
      List.Forall₂ (fun child cl => Subtree reader h child.2 cl ∧ lastKeyOf cl = some child.1)
        children lss

/-- The children of an index block of height `h + 1` and the data blocks below each. -/
def Children (reader : ρ) (h : ℕ) (children : List (Bytes × Position))
    (lss : List (List Leaf)) : Prop :=
  List.Forall₂ (fun child cl => Subtree reader h child.2 cl ∧ lastKeyOf cl = some child.1)
    children lss

theorem subtree_leaf {reader : ρ} {position : Position} {ls : List Leaf}
    (h : Subtree reader 0 position ls) :
    ∃ block es, BlockReader.readBlock reader position = .ok block ∧ DataBlock block es ∧
      es ≠ [] ∧ ls = [(position, es)] := by
  rwa [Subtree] at h

theorem subtree_node {reader : ρ} {h : ℕ} {position : Position} {ls : List Leaf}
    (hsub : Subtree reader (h + 1) position ls) :
    ∃ block children lss, BlockReader.readBlock reader position = .ok block ∧
      IndexBlock block children ∧ children ≠ [] ∧ ls = lss.flatten ∧
      Children reader h children lss := by
  rwa [Subtree] at hsub

theorem Children.getElem? {reader : ρ} {h i : ℕ} {children : List (Bytes × Position)}
    {lss : List (List Leaf)} {cl : List Leaf} (hc : Children reader h children lss)
    (hcl : lss[i]? = some cl) :
    ∃ hi : i < children.length,
      Subtree reader h children[i].2 cl ∧ lastKeyOf cl = some children[i].1 := by
  obtain ⟨hi, rfl⟩ := List.getElem?_eq_some_iff.mp hcl
  have hi' : i < children.length := hc.length_eq ▸ hi
  exact ⟨hi', (List.forall₂_iff_get.mp hc).2 i hi' hi⟩

/-- What holds of every data block of a subtree. -/
theorem Subtree.forall_leaves {reader : ρ} {h : ℕ} {position : Position} {ls : List Leaf}
    (hsub : Subtree reader h position ls) :
    ∀ leaf ∈ ls, leaf.2 ≠ [] ∧
      ∃ block, BlockReader.readBlock reader leaf.1 = .ok block ∧ DataBlock block leaf.2 := by
  induction h generalizing position ls with
  | zero =>
      obtain ⟨block, es, hread, hblock, hne, rfl⟩ := subtree_leaf hsub
      intro leaf hleaf
      obtain rfl := List.mem_singleton.mp hleaf
      exact ⟨hne, block, hread, hblock⟩
  | succ h ih =>
      obtain ⟨block, children, lss, -, -, -, rfl, hc⟩ := subtree_node hsub
      intro leaf hleaf
      obtain ⟨cl, hcl, hleaf⟩ := List.mem_flatten.mp hleaf
      obtain ⟨i, hi, rfl⟩ := List.getElem_of_mem hcl
      obtain ⟨_, hsubtree, -⟩ := hc.getElem? (List.getElem?_eq_getElem hi)
      exact ih hsubtree leaf hleaf

theorem Subtree.ne_nil {reader : ρ} {h : ℕ} {position : Position} {ls : List Leaf}
    (hsub : Subtree reader h position ls) : ls ≠ [] := by
  induction h generalizing position ls with
  | zero =>
      obtain ⟨block, es, -, -, -, rfl⟩ := subtree_leaf hsub
      simp
  | succ h ih =>
      obtain ⟨block, children, lss, -, -, hne, rfl, hc⟩ := subtree_node hsub
      cases hc with
      | nil => exact absurd rfl hne
      | cons hhead _ =>
          intro hnil
          exact ih hhead.1 (List.append_eq_nil_iff.mp hnil).1

theorem Children.length_pos {reader : ρ} {h i : ℕ} {children : List (Bytes × Position)}
    {lss : List (List Leaf)} {cl : List Leaf} (hc : Children reader h children lss)
    (hcl : lss[i]? = some cl) : 0 < cl.length := by
  obtain ⟨_, hsub, -⟩ := hc.getElem? hcl
  exact List.length_pos_iff.mpr hsub.ne_nil

/-! ## Paths -/

/-- The stack of level cursors, root first, points at data block `j` of the subtree. -/
inductive PathAt (reader : ρ) : ℕ → List Leaf → List IndexBlockCursor → ℕ → Prop
  | leaf (l : Leaf) : PathAt reader 0 [l] [] 0
  | node {h i j : ℕ} {children : List (Bytes × Position)} {lss : List (List Leaf)}
      {cl : List Leaf} {ic : IndexBlockCursor} {stack : List IndexBlockCursor}
      (hc : Children reader h children lss) (hat : ic.At children (some i))
      (hcl : lss[i]? = some cl) (hpath : PathAt reader h cl stack j) :
      PathAt reader (h + 1) lss.flatten (ic :: stack) (offsetOf lss i + j)

theorem PathAt.lt {reader : ρ} {h j : ℕ} {ls : List Leaf} {stack : List IndexBlockCursor}
    (hpath : PathAt reader h ls stack j) : j < ls.length := by
  induction hpath with
  | leaf l => simp
  | node hc hat hcl _ ih =>
      obtain ⟨hi, rfl⟩ := List.getElem?_eq_some_iff.mp hcl
      exact offsetOf_add_lt _ _ _ hi ih

theorem PathAt.length_eq {reader : ρ} {h j : ℕ} {ls : List Leaf}
    {stack : List IndexBlockCursor} (hpath : PathAt reader h ls stack j) : stack.length = h := by
  induction hpath with
  | leaf l => rfl
  | node _ _ _ _ ih => simp [ih]

theorem childPosition_eq {ic : IndexBlockCursor} {children : List (Bytes × Position)} {i : ℕ}
    (hat : ic.At children (some i)) (hi : i < children.length) :
    IndexTreeIter.childPosition ic = .ok children[i].2 := by
  obtain ⟨bytes, hvalue, hposition⟩ := hat.value_eq hi
  simp [IndexTreeIter.childPosition, hvalue, hposition, bind, Except.bind]

/-- The last cursor of a path yields the position of its data block. -/
theorem PathAt.leaf_position {reader : ρ} {h j : ℕ} {ls : List Leaf}
    {stack : List IndexBlockCursor} (hpath : PathAt reader (h + 1) ls stack j) :
    ∃ ic leaf bytes, stack[h]? = some ic ∧ Cursor.valid ic = true ∧
      ls[j]? = some leaf ∧ Cursor.value ic = .ok (some bytes) ∧
      Position.ofBytes bytes = .ok leaf.1 := by
  induction h generalizing ls stack j with
  | zero =>
      obtain _ | ⟨hc, hat, hcl, hpath⟩ := hpath
      rename_i i j children lss cl ic stack
      obtain ⟨hi, hsub, -⟩ := hc.getElem? hcl
      obtain ⟨block, es, -, -, -, rfl⟩ := subtree_leaf hsub
      obtain ⟨hlt, hget⟩ := List.getElem?_eq_some_iff.mp hcl
      obtain ⟨bytes, hvalue, hposition⟩ := hat.value_eq hi
      have hj : j = 0 := by
        have := hpath.lt
        simpa using this
      subst hj
      have hflat := getElem?_flatten_offsetOf lss i 0 hlt (by simp [hget])
      refine ⟨ic, (children[i].2, es), bytes, rfl, hat.valid_eq, ?_, hvalue, hposition⟩
      rw [hflat]
      simp [hget]
  | succ h ih =>
      obtain _ | ⟨hc, hat, hcl, hpath⟩ := hpath
      rename_i i j children lss cl ic stack
      obtain ⟨last, leaf, bytes, hlast, hvalid, hleaf, hvalue, hposition⟩ := ih hpath
      obtain ⟨hlt, rfl⟩ := List.getElem?_eq_some_iff.mp hcl
      have hj := hpath.lt
      have hflat := getElem?_flatten_offsetOf lss i j hlt hj
      rw [List.getElem?_eq_getElem hj] at hleaf
      exact ⟨last, leaf, bytes, by simpa using hlast, hvalid, hflat.trans hleaf, hvalue, hposition⟩

/-! ## Descending -/

theorem entriesOf_append (ls ls' : List Leaf) :
    entriesOf (ls ++ ls') = entriesOf ls ++ entriesOf ls' := by
  simp [entriesOf]

theorem entriesOf_sublist {lss : List (List Leaf)} {i : ℕ} {cl : List Leaf}
    (hcl : lss[i]? = some cl) : (entriesOf cl).Sublist (entriesOf lss.flatten) := by
  obtain ⟨hi, rfl⟩ := List.getElem?_eq_some_iff.mp hcl
  rw [flatten_split lss i hi, entriesOf_append, entriesOf_append]
  exact (List.sublist_append_left _ _).trans (List.sublist_append_right _ _)

/-- `place` puts a fresh cursor of an index block at the child that holds the data block
selected by `sel`. -/
structure Places (reader : ρ) (place : IndexBlockCursor → Ran Fault IndexBlockCursor)
    (sel : List Leaf → Option ℕ) : Prop where
  inside : ∀ ls, Inside ls.length (sel ls)
  node : ∀ {h j : ℕ} {block : Bytes} {children : List (Bytes × Position)}
    {lss : List (List Leaf)}, IndexBlock block children → Children reader h children lss →
    Ascending (entriesOf lss.flatten) → sel lss.flatten = some j →
    ∃ it child i cl j', NormalBlockIter.new block = .ok it ∧
      place (IndexEntryDecodeIter.new it) = .ok child ∧ child.At children (some i) ∧
      lss[i]? = some cl ∧ sel cl = some j' ∧ j = offsetOf lss i + j'

/-- `loop` pushes the cursor of a child while the leaf level is not reached. -/
structure Descends (place : IndexBlockCursor → Ran Fault IndexBlockCursor)
    (loop : ℕ → IndexTreeIter ρ → Ran Fault (IndexTreeIter ρ)) : Prop where
  zero : ∀ self, loop 0 self = .ok self
  succ : ∀ {n self ic position child}, self.currIterIdx < self.lastIndexLevel →
    index self.indexIters self.currIterIdx = .ok ic → Cursor.valid ic = true →
    IndexTreeIter.childPosition ic = .ok position →
    self.loadIndexBlock position place = .ok child → Cursor.valid child = true →
    loop (n + 1) self = loop n (self.pushLevel child)

theorem descends_seekEndLoop (d : Direction) :
    Descends (ρ := ρ) (Cursor.seekToFirst d) (IndexTreeIter.seekEndLoop d) where
  zero _ := rfl
  succ hlt hindex hvalid hposition hload _ := by
    simp [IndexTreeIter.seekEndLoop, hlt, hindex, hvalid, hposition, hload]

theorem descends_redescend (d : Direction) :
    Descends (ρ := ρ) (Cursor.seekToFirst d) (IndexTreeIter.redescend d) where
  zero _ := rfl
  succ hlt hindex _ hposition hload hchild := by
    simp [IndexTreeIter.redescend, hlt, hindex, hposition, hload, hchild]

theorem descends_locateLoop (t : Bytes) :
    Descends (ρ := ρ) (IndexEntryDecodeIter.seekLowerBound t) (IndexTreeIter.locateLoop t) where
  zero _ := rfl
  succ hlt hindex hvalid hposition hload _ := by
    simp [IndexTreeIter.locateLoop, hlt, hindex, hvalid, hposition, hload]

/-- Reading and placing the cursor of the root of a subtree. -/
theorem Places.load {reader : ρ} {place : IndexBlockCursor → Ran Fault IndexBlockCursor}
    {sel : List Leaf → Option ℕ} (hplaces : Places reader place sel) {h j : ℕ}
    {position : Position} {ls : List Leaf} (hsub : Subtree reader (h + 1) position ls)
    (hasc : Ascending (entriesOf ls)) (hsel : sel ls = some j) (self : IndexTreeIter ρ)
    (hreader : self.reader = reader) :
    ∃ child children lss i cl j', self.loadIndexBlock position place = .ok child ∧
      child.At children (some i) ∧ Children reader h children lss ∧ ls = lss.flatten ∧
      lss[i]? = some cl ∧ Ascending (entriesOf cl) ∧ sel cl = some j' ∧
      j = offsetOf lss i + j' := by
  obtain ⟨block, children, lss, hread, hblock, -, rfl, hc⟩ := subtree_node hsub
  obtain ⟨it, child, i, cl, j', hnew, hplace, hat, hcl, hj', rfl⟩ :=
    hplaces.node hblock hc hasc hsel
  refine ⟨child, children, lss, i, cl, j', ?_, hat, hc, rfl, hcl,
    hasc.sublist (entriesOf_sublist hcl), hj', rfl⟩
  simp [IndexTreeIter.loadIndexBlock, hreader, hread, hnew, hplace, bind, Except.bind]

/-- Descending `h` levels from a positioned cursor completes the path. -/
theorem Descends.path {reader : ρ} {place : IndexBlockCursor → Ran Fault IndexBlockCursor}
    {loop : ℕ → IndexTreeIter ρ → Ran Fault (IndexTreeIter ρ)} {sel : List Leaf → Option ℕ}
    (hloop : Descends place loop) (hplaces : Places reader place sel) {h : ℕ} :
    ∀ {i j : ℕ} (self : IndexTreeIter ρ) (pre : List IndexBlockCursor) {ic : IndexBlockCursor}
      {children : List (Bytes × Position)} {lss : List (List Leaf)} {cl : List Leaf},
      self.reader = reader → self.indexIters = pre ++ [ic] → self.currIterIdx = pre.length →
      self.lastIndexLevel = pre.length + h → ic.At children (some i) →
      Children reader h children lss → lss[i]? = some cl → Ascending (entriesOf cl) →
      sel cl = some j →
      ∃ stack, loop h self = .ok { self with
          indexIters := pre ++ ic :: stack, currIterIdx := pre.length + h } ∧
        PathAt reader h cl stack j := by
  induction h with
  | zero =>
      intro i j self pre ic children lss cl hreader hiters hcurr hlast hat hc hcl hasc hsel
      obtain ⟨hi, hsub, -⟩ := hc.getElem? hcl
      obtain ⟨block, es, -, -, -, rfl⟩ := subtree_leaf hsub
      obtain rfl : j = 0 := by simpa using hplaces.inside _ j hsel
      refine ⟨[], ?_, .leaf _⟩
      rw [hloop.zero, ← hiters, Nat.add_zero, ← hcurr]
  | succ h ih =>
      intro i j self pre ic children lss cl hreader hiters hcurr hlast hat hc hcl hasc hsel
      obtain ⟨hi, hsub, -⟩ := hc.getElem? hcl
      obtain ⟨child, children', lss', i', cl', j', hload, hchild, hc', rfl, hcl', hasc', hsel', rfl⟩ :=
        hplaces.load hsub hasc hsel self hreader
      have hindex : index self.indexIters self.currIterIdx = .ok ic := by
        rw [hiters, hcurr, index_of_lt (by simp)]
        simp
      have hstep := hloop.succ (n := h) (by omega) hindex hat.valid_eq (childPosition_eq hat hi) hload
        hchild.valid_eq
      obtain ⟨stack, hrun, hpath⟩ := ih (self.pushLevel child) (pre ++ [ic])
        hreader (by simp [IndexTreeIter.pushLevel, hiters])
        (by simp [IndexTreeIter.pushLevel, hcurr])
        (by
          change self.lastIndexLevel = _
          rw [hlast, List.length_append, List.length_singleton]
          omega) hchild hc' hcl' hasc' hsel'
      refine ⟨child :: stack, ?_, .node hc' hchild hcl' hpath⟩
      rw [hstep, hrun]
      simp only [IndexTreeIter.pushLevel, List.append_assoc, List.singleton_append,
        List.length_append, List.length_singleton, Ran.ok_inj]
      congr 1
      omega

/-! ## The two ways of placing a cursor -/

theorem places_first (reader : ρ) (d : Direction) :
    Places reader (Cursor.seekToFirst d) (fun ls => d.first ls.length) where
  inside ls := inside_first d ls.length
  node := by
    intro h j block children lss hblock hc _ hsel
    have hne : 0 < lss.length := by
      cases lss with
      | nil => cases d <;> simp [first] at hsel
      | cons => simp
    obtain ⟨i, hi, hlt⟩ := first_eq_some d hne
    have hcl : lss[i]? = some lss[i] := List.getElem?_eq_getElem hlt
    obtain ⟨j', hj', -⟩ := first_eq_some d (hc.length_pos hcl)
    obtain ⟨it, child, hnew, hplace, hat⟩ := hblock.load_first d
    rw [hc.length_eq, hi] at hat
    have hfirst := first_flatten d hi hcl hj'
    rw [hfirst] at hsel
    exact ⟨it, child, i, lss[i], j', hnew, hplace, hat, hcl, hj', (Option.some.inj hsel).symm⟩

/-- Every key of the data block is below `t`. -/
def leafBelow (t : Bytes) (leaf : Leaf) : Bool := leaf.2.all (fun e => decide (e.1 < t))

/-- The first data block that is not entirely below `t`. -/
def lowerLeaf (t : Bytes) (ls : List Leaf) : Option ℕ :=
  if ls.countP (leafBelow t) < ls.length then some (ls.countP (leafBelow t)) else none

theorem mem_entriesOf {ls : List Leaf} {e : Bytes × Entry Bytes} :
    e ∈ entriesOf ls ↔ ∃ leaf ∈ ls, e ∈ leaf.2 := by
  rw [entriesOf, ← List.flatMap_def, List.mem_flatMap]

theorem leafBelow_iff {t : Bytes} {leaf : Leaf} :
    leafBelow t leaf = true ↔ ∀ e ∈ leaf.2, e.1 < t := by
  simp [leafBelow]

/-- An end key is below `t` exactly when all data blocks of its child are. -/
theorem lastKeyOf_lt_iff {cl : List Leaf} {k t : Bytes} (hasc : Ascending (entriesOf cl))
    (hk : lastKeyOf cl = some k) : k < t ↔ ∀ leaf ∈ cl, leafBelow t leaf = true := by
  obtain ⟨e, he, rfl⟩ := Option.map_eq_some_iff.mp hk
  have hmem : e ∈ entriesOf cl := List.mem_of_getLast? he
  constructor
  · intro hlt leaf hleaf
    rw [leafBelow_iff]
    intro e' he'
    exact (hasc.le_getLast he e' (mem_entriesOf.mpr ⟨leaf, hleaf, he'⟩)).trans_lt hlt
  · intro hall
    obtain ⟨leaf, hleaf, hmem⟩ := mem_entriesOf.mp hmem
    exact leafBelow_iff.mp (hall leaf hleaf) e hmem

/-- Every end key occurs among the keys below its node. -/
theorem Children.mem_keys {reader : ρ} {h : ℕ} {children : List (Bytes × Position)}
    {lss : List (List Leaf)} (hc : Children reader h children lss) :
    ∀ child ∈ children, ∃ e ∈ entriesOf lss.flatten, e.1 = child.1 := by
  intro child hchild
  obtain ⟨i, hi, rfl⟩ := List.getElem_of_mem hchild
  have hi' : i < lss.length := hc.length_eq ▸ hi
  have hcl : lss[i]? = some lss[i] := List.getElem?_eq_getElem hi'
  obtain ⟨_, -, hlast⟩ := hc.getElem? hcl
  obtain ⟨e, he, hkey⟩ := Option.map_eq_some_iff.mp hlast
  exact ⟨e, (entriesOf_sublist hcl).mem (List.mem_of_getLast? he), hkey⟩

theorem Children.ascending {reader : ρ} {h : ℕ} {children : List (Bytes × Position)}
    {lss : List (List Leaf)} (hc : Children reader h children lss)
    (hasc : Ascending (entriesOf lss.flatten)) : Ascending children := by
  induction hc with
  | nil => exact .nil
  | @cons child cl children lss hhead htail ih =>
      rw [List.flatten_cons, entriesOf_append] at hasc
      obtain ⟨-, hasc', hlt⟩ := List.pairwise_append.mp hasc
      refine List.pairwise_cons.mpr ⟨?_, ih hasc'⟩
      intro child' hchild'
      obtain ⟨e, he, hkey⟩ := Option.map_eq_some_iff.mp hhead.2
      obtain ⟨e', he', hkey'⟩ := Children.mem_keys htail child' hchild'
      rw [← hkey, ← hkey']
      exact hlt e (List.mem_of_getLast? he) e' he'

/-- Data blocks after a child whose end key reaches `t` are not below `t`. -/
theorem Children.not_leafBelow_after {reader : ρ} {h i : ℕ}
    {children : List (Bytes × Position)} {lss : List (List Leaf)} {t : Bytes}
    (hc : Children reader h children lss) (hasc : Ascending (entriesOf lss.flatten))
    (hi : i < children.length) (hge : t ≤ children[i].1) :
    ∀ cl ∈ lss.drop (i + 1), ∀ leaf ∈ cl, leafBelow t leaf = false := by
  intro cl hcl leaf hleaf
  obtain ⟨k, hk, rfl⟩ := List.getElem_of_mem hcl
  have hk' : i + 1 + k < lss.length := by
    rw [List.length_drop] at hk
    omega
  rw [List.getElem_drop] at hleaf
  have hlater : lss[i + 1 + k]? = some lss[i + 1 + k] := List.getElem?_eq_getElem hk'
  obtain ⟨_, hsub, -⟩ := hc.getElem? hlater
  obtain ⟨e, l, hcons⟩ := List.exists_cons_of_ne_nil (hsub.forall_leaves leaf hleaf).1
  have hi' : i < lss.length := hc.length_eq ▸ hi
  obtain ⟨_, -, hlast⟩ := hc.getElem? (List.getElem?_eq_getElem hi')
  obtain ⟨e₀, he₀, hkey⟩ := Option.map_eq_some_iff.mp hlast
  rw [flatten_split lss i hi', entriesOf_append, entriesOf_append] at hasc
  have hright := (List.pairwise_append.mp hasc).2.1
  have hmem : e ∈ entriesOf (lss.drop (i + 1)).flatten := by
    refine mem_entriesOf.mpr ⟨leaf, List.mem_flatten.mpr ⟨_, hcl, ?_⟩, by simp [hcons]⟩
    rwa [List.getElem_drop]
  have hlt := (List.pairwise_append.mp hright).2.2 e₀ (List.mem_of_getLast? he₀) e hmem
  rw [hkey] at hlt
  rw [← Bool.not_eq_true, leafBelow_iff]
  intro hall
  have hbelow := hall e (by simp [hcons])
  exact absurd (hge.trans_lt hlt) (not_lt.mpr hbelow.le)

theorem places_lowerBound (reader : ρ) (t : Bytes) :
    Places reader (IndexEntryDecodeIter.seekLowerBound t) (lowerLeaf t) where
  inside ls := by
    intro i hi
    simp only [lowerLeaf, Option.ite_none_right_eq_some, Option.some.injEq] at hi
    omega
  node := by
    intro h j block children lss hblock hc hasc hsel
    simp only [lowerLeaf, Option.ite_none_right_eq_some, Option.some.injEq] at hsel
    obtain ⟨hlt, rfl⟩ := hsel
    have hends := (hc.ascending hasc).initial_lt t
    obtain ⟨it, child, hnew, hplace, hat⟩ := hblock.load_lowerBound (hc.ascending hasc) t
    have hbelow : ∀ k (hk : k < lss.length) (hk' : k < children.length),
        children[k].1 < t ↔ ∀ leaf ∈ lss[k], leafBelow t leaf = true := by
      intro k hk hk'
      have hcl : lss[k]? = some lss[k] := List.getElem?_eq_getElem hk
      obtain ⟨_, -, hlast⟩ := hc.getElem? hcl
      exact lastKeyOf_lt_iff (hasc.sublist (entriesOf_sublist hcl)) hlast
    generalize hcount : children.countP (fun child => decide (child.1 < t)) = i at *
    have hend : ∀ k (hk : k < children.length), children[k].1 < t ↔ k < i := by
      intro k hk
      rw [← hcount, ← hends.getElem_iff k hk, decide_eq_true_iff]
    -- Some data block is not below `t`, so its child's end key is not either.
    have hi : i < children.length := by
      by_contra hge
      have hall : lss.flatten.countP (leafBelow t) = lss.flatten.length := by
        rw [List.countP_eq_length]
        intro leaf hleaf
        obtain ⟨cl, hcl, hleaf⟩ := List.mem_flatten.mp hleaf
        obtain ⟨k, hk, rfl⟩ := List.getElem_of_mem hcl
        have hk' : k < children.length := hc.length_eq ▸ hk
        exact (hbelow k hk hk').mp ((hend k hk').mpr (by omega)) leaf hleaf
      omega
    have hi' : i < lss.length := hc.length_eq ▸ hi
    have hge : t ≤ children[i].1 := not_lt.mp (fun hlt => by simpa using (hend i hi).mp hlt)
    have hsplit := countP_flatten_block (leafBelow t) lss i hi' (by
      intro cl hcl
      obtain ⟨k, hk, rfl⟩ := List.getElem_of_mem hcl
      rw [List.length_take] at hk
      rw [List.getElem_take]
      exact (hbelow k (by omega) (by omega)).mp ((hend k (by omega)).mpr (by omega)))
      (hc.not_leafBelow_after hasc hi hge)
    have hnot : lss[i].countP (leafBelow t) < lss[i].length := by
      refine lt_of_le_of_ne List.countP_le_length ?_
      intro heq
      exact absurd ((hbelow i hi' hi).mpr (List.countP_eq_length.mp heq)) (not_lt.mpr hge)
    refine ⟨it, child, i, lss[i], lss[i].countP (leafBelow t), hnew, hplace, ?_,
      List.getElem?_eq_getElem hi', by simp [lowerLeaf, hnot], hsplit⟩
    simpa only [target, hcount, if_pos hi] using hat

/-! ## Stepping -/

namespace IndexTreeIter

/-- What `climb` does after it popped level `n`. -/
def unwind (d : Direction) (n : ℕ) (self : IndexTreeIter ρ) :
    Ran Fault (Bool × IndexTreeIter ρ) :=
  match n with
  | 0 => .ok (false, self)
  | parent + 1 => climb d parent { self with currIterIdx := parent }

omit [BlockReader ρ] in
theorem climb_eq (d : Direction) (n : ℕ) (self : IndexTreeIter ρ) :
    climb d n self = stepLevel d n self (unwind d n) := by
  cases n <;> rfl

section StepLevel

variable {d : Direction} {self : IndexTreeIter ρ} {pre : List IndexBlockCursor}
  {ic : IndexBlockCursor} {children : List (Bytes × Position)} {i : ℕ}

variable (self) in
omit [BlockReader ρ] in
/-- Advancing the deepest level of a stack. -/
theorem climb_top (hiters : self.indexIters = pre ++ [ic]) (hcurr : self.currIterIdx = pre.length)
    (hat : ic.At children (some i)) :
    ∃ ic', ic'.At children (d.step children.length (some i)) ∧
      climb d pre.length self =
        if (d.step children.length (some i)).isSome then
          .ok (true, { self with indexIters := pre ++ [ic'] })
        else unwind d pre.length { self with indexIters := pre } := by
  obtain ⟨ic', hnext, hat'⟩ := hat.next d
  refine ⟨ic', hat', ?_⟩
  have hvalid : Cursor.valid ic' = (d.step children.length (some i)).isSome := hat'.valid_eq
  have hindex : index (pre ++ [ic]) pre.length = .ok ic := by
    rw [index_of_lt (by simp)]
    simp
  have herase : (pre ++ [ic']).eraseIdx pre.length = pre := by
    rw [List.eraseIdx_append_of_length_le le_rfl]
    simp
  rw [climb_eq, stepLevel, hiters, hindex]
  simp only [Ran.read_ok, hnext, Ran.map_ok, Ran.bind_ok]
  simp [valid, current, hcurr, hvalid, herase]

end StepLevel

/-- Where `climb` goes on after every level below `pre` has been popped. -/
def unwound (d : Direction) (pre : List IndexBlockCursor) (self : IndexTreeIter ρ) :
    Ran Fault (Bool × IndexTreeIter ρ) :=
  unwind d pre.length { self with indexIters := pre, currIterIdx := pre.length }

/-- Stepping from a path: `climb` pops the exhausted levels and `redescend` rebuilds them
over the neighbouring data block; past the end it pops the whole path. -/
theorem climb_path {reader : ρ} (d : Direction) {h j : ℕ} {ls : List Leaf}
    {stack : List IndexBlockCursor} (hpath : PathAt reader h ls stack j)
    (hasc : Ascending (entriesOf ls)) :
    ∀ (pre : List IndexBlockCursor) {self : IndexTreeIter ρ} {curr : ℕ},
      self.reader = reader → self.indexIters = pre ++ stack → curr + 1 = pre.length + h →
      self.currIterIdx = curr → self.lastIndexLevel = curr →
      (∀ j', d.step ls.length (some j) = some j' → ∃ mid stack',
        climb d curr self = .ok (true, mid) ∧
        redescend d (curr - mid.currIterIdx) mid =
          .ok { self with indexIters := pre ++ stack' } ∧
        PathAt reader h ls stack' j') ∧
      (d.step ls.length (some j) = none → climb d curr self = unwound d pre self) := by
  induction hpath with
  | leaf l =>
      intro pre self curr hreader hiters hlen hcurr hlast
      refine ⟨fun j' hstep => by cases d <;> simp [step] at hstep, fun _ => ?_⟩
      have hunwind : pre.length = curr + 1 := by omega
      rw [List.append_nil] at hiters
      rw [unwound, hunwind, unwind, ← hiters, ← hcurr]
  | @node h i j children lss cl ic stack hc hat hcl hpath ih =>
      intro pre self curr hreader hiters hlen hcurr hlast
      have hj := hpath.lt
      obtain ⟨hinside, hout⟩ := ih (hasc.sublist (entriesOf_sublist hcl)) (pre ++ [ic])
        hreader (by simp [hiters]) (by simp; omega) hcurr hlast
      cases hstep : d.step cl.length (some j) with
      | some j₁ =>
          have hflat := step_flatten_inside d hcl hj hstep
          obtain ⟨mid, stack', hclimb, hdesc, hpath'⟩ := hinside j₁ hstep
          refine ⟨fun j' hj' => ⟨mid, ic :: stack', hclimb, ?_, ?_⟩, fun hnone => ?_⟩
          · simpa using hdesc
          · rw [hflat] at hj'
            obtain rfl := Option.some.inj hj'
            exact .node hc hat hcl hpath'
          · rw [hflat] at hnone
            cases hnone
      | none =>
          have hup := hout hstep
          rw [unwound, List.length_append, List.length_singleton, unwind] at hup
          obtain ⟨ic', hat', htop⟩ := climb_top (d := d)
            { self with indexIters := pre ++ [ic], currIterIdx := pre.length } rfl rfl hat
          cases hnext : d.step children.length (some i) with
          | some i' =>
              rw [hnext] at hat' htop
              have hi' : i' < lss.length := hc.length_eq ▸ hat'.inside i' rfl
              have hcl' : lss[i']? = some lss[i'] := List.getElem?_eq_getElem hi'
              obtain ⟨j₁, hfirst, -⟩ := first_eq_some d (hc.length_pos hcl')
              have hflat := step_flatten_across d hcl hj hstep (hc.length_eq ▸ hnext) hcl' hfirst
              obtain ⟨stack', hdesc, hpath'⟩ :=
                (descends_redescend d).path (places_first reader d)
                  { self with indexIters := pre ++ [ic'], currIterIdx := pre.length } pre
                  hreader rfl rfl (show self.lastIndexLevel = _ by omega) hat' hc hcl'
                  (hasc.sublist (entriesOf_sublist hcl')) hfirst
              refine ⟨fun j' hj' => ⟨_, ic' :: stack', hup.trans htop, ?_, ?_⟩, fun hnone => ?_⟩
              · have hdepth : curr - pre.length = h := by omega
                simp only [hdepth, hdesc]
                rw [show pre.length + h = self.currIterIdx by omega]
              · rw [hflat] at hj'
                obtain rfl := Option.some.inj hj'
                exact .node hc hat' hcl' hpath'
              · rw [hflat] at hnone
                cases hnone
          | none =>
              rw [hnext] at htop
              have hflat := step_flatten_end d hcl hj hstep (hc.length_eq ▸ hnext)
              refine ⟨fun j' hj' => ?_, fun _ => hup.trans htop⟩
              rw [hflat] at hj'
              cases hj'

/-! ## The iterator over a whole tree -/

/-- The iterator is set up for a tree with `h + 1` index levels below `root`. -/
structure Over (tree : IndexTreeIter ρ) (reader : ρ) (h : ℕ) (root : Position) : Prop where
  reader_eq : tree.reader = reader
  treeHeight_eq : tree.treeHeight = h + 2
  rootPosition_eq : tree.rootPosition = root

/-- The iterator's path points at data block `j`. -/
structure PointsAt (tree : IndexTreeIter ρ) (reader : ρ) (h : ℕ) (root : Position)
    (ls : List Leaf) (j : ℕ) : Prop extends Over tree reader h root where
  currIterIdx_eq : tree.currIterIdx = h
  path : PathAt reader (h + 1) ls tree.indexIters j

section Tree

variable {reader : ρ} {h j : ℕ} {root : Position} {ls : List Leaf} {self : IndexTreeIter ρ}

omit [BlockReader ρ] in
theorem Over.lastIndexLevel_eq (hover : self.Over reader h root) : self.lastIndexLevel = h := by
  rw [lastIndexLevel, hover.treeHeight_eq]
  rfl

omit [BlockReader ρ] in
theorem Over.update (hover : self.Over reader h root) (indexIters : List IndexBlockCursor)
    (currIterIdx : ℕ) :
    ({ self with indexIters, currIterIdx } : IndexTreeIter ρ).Over reader h root :=
  ⟨hover.reader_eq, hover.treeHeight_eq, hover.rootPosition_eq⟩

omit [BlockReader ρ] in
theorem Over.not_flat (hover : self.Over reader h root) : ¬ self.treeHeight ≤ 1 := by
  rw [hover.treeHeight_eq]
  omega

/-- Descending from the root when the depth index starts at zero. -/
theorem path_from_root {place : IndexBlockCursor → Ran Fault IndexBlockCursor}
    {loop : ℕ → IndexTreeIter ρ → Ran Fault (IndexTreeIter ρ)} {sel : List Leaf → Option ℕ}
    (hloop : Descends place loop) (hplaces : Places reader place sel)
    (hover : self.Over reader h root) (hsub : Subtree reader (h + 1) root ls)
    (hasc : Ascending (entriesOf ls)) (hcurr : self.currIterIdx = 0) (hsel : sel ls = some j) :
    ∃ ic tree, self.reset.loadIndexBlock self.rootPosition place = .ok ic ∧
      loop (self.reset.lastIndexLevel - self.reset.currIterIdx) (self.reset.push ic) = .ok tree ∧
      tree.PointsAt reader h root ls j := by
  obtain ⟨ic, children, lss, i, cl, j', hload, hat, hc, rfl, hcl, hasc', hsel', rfl⟩ :=
    hplaces.load hsub hasc hsel self.reset hover.reader_eq
  obtain ⟨stack, hrun, hpath⟩ := hloop.path hplaces (self.reset.push ic) []
    hover.reader_eq (by simp [push, reset]) hcurr
    (by
      change self.lastIndexLevel = _
      rw [hover.lastIndexLevel_eq]
      simp) hat hc hcl hasc' hsel'
  have hdepth : self.reset.lastIndexLevel - self.reset.currIterIdx = h := by
    change self.lastIndexLevel - self.currIterIdx = h
    rw [hover.lastIndexLevel_eq, hcurr]
    rfl
  rw [hdepth]
  refine ⟨ic, _, hover.rootPosition_eq ▸ hload, hrun, ?_⟩
  exact
    { reader_eq := hover.reader_eq
      treeHeight_eq := hover.treeHeight_eq
      rootPosition_eq := hover.rootPosition_eq
      currIterIdx_eq := Nat.zero_add h
      path := .node hc hat hcl hpath }

theorem innerSeekToFirst_of_zero (d : Direction) (hover : self.Over reader h root)
    (hsub : Subtree reader (h + 1) root ls) (hasc : Ascending (entriesOf ls))
    (hcurr : self.currIterIdx = 0) (hfirst : d.first ls.length = some j) :
    ∃ tree, innerSeekToFirst d self = .ok tree ∧ tree.PointsAt reader h root ls j := by
  obtain ⟨ic, tree, hload, hloop, hpoints⟩ :=
    path_from_root (descends_seekEndLoop d) (places_first reader d) hover hsub hasc hcurr hfirst
  refine ⟨tree, ?_, hpoints⟩
  rw [innerSeekToFirst, if_neg hover.not_flat]
  change Ran.read (self.reset.loadIndexBlock self.rootPosition _) _ _ = _
  rw [hload]
  exact hloop

theorem locate_of_zero (t : Bytes) (hover : self.Over reader h root)
    (hsub : Subtree reader (h + 1) root ls) (hasc : Ascending (entriesOf ls))
    (hcurr : self.currIterIdx = 0) (hsel : lowerLeaf t ls = some j) :
    ∃ tree, locate self t = .ok tree ∧ tree.PointsAt reader h root ls j := by
  obtain ⟨ic, tree, hload, hloop, hpoints⟩ :=
    path_from_root (descends_locateLoop t) (places_lowerBound reader t) hover hsub hasc hcurr hsel
  refine ⟨tree, ?_, hpoints⟩
  rw [locate, if_neg hover.not_flat]
  change Ran.read (self.reset.loadIndexBlock self.rootPosition _) _ _ = _
  rw [hload]
  exact hloop

/-- The root cursor that `locate` places. -/
theorem load_root_lowerBound (t : Bytes) (hover : self.Over reader h root)
    (hsub : Subtree reader (h + 1) root ls) (hasc : Ascending (entriesOf ls)) :
    ∃ ic children lss, self.reset.loadIndexBlock self.rootPosition
        (IndexEntryDecodeIter.seekLowerBound t) = .ok ic ∧
      Children reader h children lss ∧ ls = lss.flatten ∧
      ic.At children (Direction.forward.target children t) := by
  obtain ⟨block, children, lss, hread, hblock, -, rfl, hc⟩ := subtree_node hsub
  obtain ⟨it, ic, hnew, hplace, hat⟩ := hblock.load_lowerBound (hc.ascending hasc) t
  refine ⟨ic, children, lss, ?_, hc, rfl, hat⟩
  simp [loadIndexBlock, reset, hover.reader_eq, hover.rootPosition_eq, hread, hnew, hplace, bind,
    Except.bind]

/-- When every key is below `t`, `locate` stops with an invalid root cursor. -/
theorem locate_past (t : Bytes) (hover : self.Over reader h root)
    (hsub : Subtree reader (h + 1) root ls) (hasc : Ascending (entriesOf ls))
    (hcurr : self.currIterIdx = 0) (hsel : lowerLeaf t ls = none) :
    ∃ tree, locate self t = .ok tree ∧ tree.Over reader h root ∧ tree.currIterIdx = 0 ∧
      tree.valid = false := by
  obtain ⟨ic, children, lss, hload, hc, rfl, hat⟩ := load_root_lowerBound t hover hsub hasc
  have hall : lss.flatten.countP (leafBelow t) = lss.flatten.length := by
    have hle : lss.flatten.countP (leafBelow t) ≤ lss.flatten.length := List.countP_le_length
    simp only [lowerLeaf, ite_eq_right_iff, reduceCtorEq, imp_false, not_lt] at hsel
    omega
  have htarget : Direction.forward.target children t = none := by
    rw [target_forward_eq_none]
    intro child hchild
    obtain ⟨e, he, hkey⟩ := hc.mem_keys child hchild
    obtain ⟨leaf, hleaf, he⟩ := mem_entriesOf.mp he
    rw [← hkey]
    exact leafBelow_iff.mp (List.countP_eq_length.mp hall leaf hleaf) e he
  rw [htarget] at hat
  have hinvalid : Cursor.valid ic = false := hat.valid_eq
  refine ⟨self.reset.push ic, ?_,
    ⟨hover.reader_eq, hover.treeHeight_eq, hover.rootPosition_eq⟩, hcurr, ?_⟩
  · rw [locate, if_neg hover.not_flat]
    change Ran.read (self.reset.loadIndexBlock self.rootPosition _) _ _ = _
    rw [hload, Ran.read_ok]
    cases self.reset.lastIndexLevel - self.reset.currIterIdx with
    | zero => rfl
    | succ n => simp [locateLoop, push, reset, hcurr, hinvalid, index]
  · simp [valid, current, push, reset, hcurr, hinvalid]

/-- With a depth index that already stands at the leaf level, only the root cursor is
placed. -/
theorem innerSeekToFirst_of_last (d : Direction) (hover : self.Over reader h root)
    (hsub : Subtree reader (h + 1) root ls) (hasc : Ascending (entriesOf ls))
    (hcurr : self.currIterIdx = h) :
    ∃ ic, innerSeekToFirst d self = .ok { self with indexIters := [ic] } := by
  obtain ⟨j, hfirst, -⟩ := first_eq_some d (List.length_pos_iff.mpr hsub.ne_nil)
  obtain ⟨ic, children, lss, i, cl, j', hload, -⟩ :=
    (places_first reader d).load hsub hasc hfirst self.reset hover.reader_eq
  refine ⟨ic, ?_⟩
  have hdepth : self.reset.lastIndexLevel - self.reset.currIterIdx = 0 := by
    change self.lastIndexLevel - self.currIterIdx = 0
    rw [hover.lastIndexLevel_eq, hcurr, Nat.sub_self]
  rw [innerSeekToFirst, if_neg hover.not_flat]
  change Ran.read (self.reset.loadIndexBlock self.rootPosition _) _ _ = _
  rw [← hover.rootPosition_eq] at hload
  rw [hload, Ran.read_ok, hdepth]
  rfl

theorem locate_of_last (t : Bytes) (hover : self.Over reader h root)
    (hsub : Subtree reader (h + 1) root ls) (hasc : Ascending (entriesOf ls))
    (hcurr : self.currIterIdx = h) :
    ∃ ic, locate self t = .ok { self with indexIters := [ic] } := by
  obtain ⟨ic, children, lss, hload, -⟩ := load_root_lowerBound t hover hsub hasc
  refine ⟨ic, ?_⟩
  have hdepth : self.reset.lastIndexLevel - self.reset.currIterIdx = 0 := by
    change self.lastIndexLevel - self.currIterIdx = 0
    rw [hover.lastIndexLevel_eq, hcurr, Nat.sub_self]
  rw [locate, if_neg hover.not_flat]
  change Ran.read (self.reset.loadIndexBlock self.rootPosition _) _ _ = _
  rw [hload, Ran.read_ok, hdepth]
  rfl

/-- Off the empty stack, `inner_next` is its two phases. -/
theorem innerNext_of_pointsAt (d : Direction) (hpoints : self.PointsAt reader h root ls j) :
    innerNext d self = (climb d h self).chain Prod.snd fun climbed =>
      if climbed.1 then redescend d (h - climbed.2.currIterIdx) climbed.2 else .ok climbed.2 := by
  have hne : ¬ self.indexIters.isEmpty = true := by
    rw [List.isEmpty_iff_length_eq_zero, hpoints.path.length_eq]
    omega
  have hheight : ¬ self.treeHeight < 2 := by
    rw [hpoints.treeHeight_eq]
    omega
  rw [innerNext, if_neg hheight, if_neg hne, hpoints.lastIndexLevel_eq, hpoints.currIterIdx_eq]

/-- Stepping to the neighbouring data block. -/
theorem innerNext_step (d : Direction) (hpoints : self.PointsAt reader h root ls j)
    (hasc : Ascending (entriesOf ls)) {j' : ℕ} (hstep : d.step ls.length (some j) = some j') :
    ∃ tree, innerNext d self = .ok tree ∧ tree.PointsAt reader h root ls j' := by
  obtain ⟨mid, iters, hclimb, hdesc, hpath'⟩ := (climb_path d hpoints.path hasc []
    hpoints.reader_eq rfl (by simp) hpoints.currIterIdx_eq hpoints.lastIndexLevel_eq).1 j' hstep
  refine ⟨{ self with indexIters := iters }, ?_, hpoints.toOver.update _ _,
    hpoints.currIterIdx_eq, hpath'⟩
  rw [innerNext_of_pointsAt d hpoints, hclimb]
  exact hdesc

/-- Stepping past the last data block empties the stack. -/
theorem innerNext_end (d : Direction) (hpoints : self.PointsAt reader h root ls j)
    (hasc : Ascending (entriesOf ls)) (hstep : d.step ls.length (some j) = none) :
    innerNext d self = .ok { self with indexIters := [], currIterIdx := 0 } := by
  have hclimb := (climb_path d hpoints.path hasc []
    hpoints.reader_eq rfl (by simp) hpoints.currIterIdx_eq hpoints.lastIndexLevel_eq).2 hstep
  rw [innerNext_of_pointsAt d hpoints, hclimb]
  rfl

theorem innerNext_nil (d : Direction) (hover : self.Over reader h root)
    (hiters : self.indexIters = []) : innerNext d self = .ok self := by
  have hheight : ¬ self.treeHeight < 2 := by
    rw [hover.treeHeight_eq]
    omega
  rw [innerNext, if_neg hheight, hiters]
  rfl

omit [BlockReader ρ] in
theorem valid_nil (hiters : self.indexIters = []) : self.valid = false := by
  simp [valid, current, hiters]

/-- The iterator yields the position of the data block its path points at. -/
theorem PointsAt.value_eq (hpoints : self.PointsAt reader h root ls j) :
    self.valid = true ∧ ∃ leaf, ls[j]? = some leaf ∧ self.value = .ok (some leaf.1) := by
  obtain ⟨ic, leaf, bytes, hic, hvalid, hleaf, hvalue, hposition⟩ := hpoints.path.leaf_position
  have hcurr := hpoints.currIterIdx_eq
  have hself : self.valid = true := by simp [valid, current, hcurr, hic, hvalid]
  refine ⟨hself, leaf, hleaf, ?_⟩
  simp [value, hself, current, hcurr, hic, hvalue, hposition, bind, Except.bind, Functor.map,
    Except.map]

end Tree

end IndexTreeIter

end Todb
