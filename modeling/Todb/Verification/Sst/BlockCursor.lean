import Todb.Library.Place
import Todb.Model.Sst.BlockIter

/-! # Cursors over one block

What the three block iterators do on a parsed block, in terms of positions in the list
of entries the block holds. -/

namespace Todb

open Library Direction

/-! ## Raw entries -/

namespace NormalBlockIter

/-- The parsed block holds exactly `cells`. -/
structure Holds (it : NormalBlockIter) (cells : List (Bytes × Bytes)) : Prop where
  count_eq : it.count = cells.length
  keyAt_eq : ∀ i (h : i < cells.length), it.keyAt i = .ok cells[i].1
  valueAt_eq : ∀ i (h : i < cells.length), it.valueAt i = .ok cells[i].2

/-- The iterator stands at position `p` of a block that holds `cells`. -/
structure At (it : NormalBlockIter) (cells : List (Bytes × Bytes)) (p : Option ℕ) : Prop
    extends Holds it cells where
  curr_eq : it.curr = p
  inside : Inside cells.length p

variable {it : NormalBlockIter} {cells : List (Bytes × Bytes)} {p : Option ℕ}

theorem Holds.at_withCurr (h : it.Holds cells) (hp : Inside cells.length p) :
    (it.withCurr p).At cells p where
  count_eq := h.count_eq
  keyAt_eq := h.keyAt_eq
  valueAt_eq := h.valueAt_eq
  curr_eq := rfl
  inside := hp

theorem At.valid_eq (h : it.At cells p) : it.valid = p.isSome := by
  rw [valid, h.curr_eq]

theorem At.key_eq (h : it.At cells p) : it.key = .ok ((entryAt cells p).map Prod.fst) := by
  rw [key, h.curr_eq]
  cases p with
  | none => rfl
  | some i =>
      have hi := h.inside i rfl
      simp [h.keyAt_eq i hi, List.getElem?_eq_getElem hi, Functor.map, Except.map]

theorem At.value_eq (h : it.At cells p) : it.value = .ok ((entryAt cells p).map Prod.snd) := by
  rw [value, h.curr_eq]
  cases p with
  | none => rfl
  | some i =>
      have hi := h.inside i rfl
      simp [h.valueAt_eq i hi, List.getElem?_eq_getElem hi, Functor.map, Except.map]

theorem Holds.seekToFirst (h : it.Holds cells) (d : Direction) :
    ∃ it', it.seekToFirst d = .ok it' ∧ it'.At cells (d.first cells.length) := by
  refine ⟨_, ?_, h.at_withCurr (inside_first d cells.length)⟩
  cases d <;> simp [NormalBlockIter.seekToFirst, first, h.count_eq]

theorem At.next (h : it.At cells p) (d : Direction) :
    ∃ it', it.next d = .ok it' ∧ it'.At cells (d.step cells.length p) := by
  refine ⟨_, ?_, h.toHolds.at_withCurr (inside_step d cells.length h.inside)⟩
  obtain ⟨block, keyOffsets, valuesOffsets, count, curr⟩ := it
  obtain rfl : curr = p := h.curr_eq
  obtain rfl : count = cells.length := h.count_eq
  cases d <;> cases curr <;> rfl

/-- The keys of the parsed block are `keys`. -/
structure Keyed (it : NormalBlockIter) (keys : List Bytes) : Prop where
  count_eq : it.count = keys.length
  keyAt_eq : ∀ i (h : i < keys.length), it.keyAt i = .ok keys[i]

theorem Holds.keyed (h : it.Holds cells) : it.Keyed (cells.map Prod.fst) where
  count_eq := by simpa using h.count_eq
  keyAt_eq i hi := by simpa using h.keyAt_eq i (by simpa using hi)

/-- The binary search of `seek` finds the boundary of a prefix-closed key predicate. -/
theorem Keyed.bisect_eq {keys : List Bytes} (h : it.Keyed keys) (p : Bytes → Bool)
    (hp : Initial p keys) :
    bisect (fun mid => do return p (← it.keyAt mid)) it.count 0 it.count = .ok (keys.countP p) := by
  have hle : keys.countP p ≤ it.count := by
    rw [h.count_eq]
    exact List.countP_le_length
  refine Library.bisect_eq it.count 0 it.count ?_ (Nat.zero_le _) hle (Nat.sub_le _ _)
  intro i _ hi
  have hlt : i < keys.length := h.count_eq ▸ hi
  have hiff := hp.getElem_iff i hlt
  have hdec : p keys[i] = decide (i < keys.countP p) := by
    rw [Bool.eq_iff_iff, decide_eq_true_iff]
    exact hiff
  simp [h.keyAt_eq i hlt, ← hdec, bind, Except.bind, pure, Except.pure]

theorem Holds.bisect_keys (h : it.Holds cells) (p : Bytes → Bool)
    (hp : Initial (fun cell => p cell.1) cells) :
    bisect (fun mid => do return p (← it.keyAt mid)) it.count 0 it.count =
      .ok (cells.countP (fun cell => p cell.1)) := by
  rw [h.keyed.bisect_eq p (List.pairwise_map.mpr hp), List.countP_map]
  rfl

theorem Holds.seek (h : it.Holds cells) (hcells : Ascending cells) (d : Direction)
    (t : Bytes) :
    ∃ it', it.seek d t = .ok it' ∧ it'.At cells (d.target cells t) := by
  refine ⟨_, ?_, h.at_withCurr (inside_target d cells t)⟩
  cases d with
  | forward =>
      have hsearch := h.bisect_keys (fun k => decide (k < t)) (hcells.initial_lt t)
      simp only [NormalBlockIter.seek, hsearch, Ran.read_ok, target]
      rw [h.count_eq]
  | reverse =>
      have hsearch := h.bisect_keys (fun k => decide (k ≤ t)) (hcells.initial_le t)
      simp only [NormalBlockIter.seek, hsearch, Ran.read_ok, target]

end NormalBlockIter

/-! ## Decoded entries -/

/-- The raw entries `cells` store the entries `es`, whose values are decoded by `R`. -/
def Stores {ν : Type} (R : Bytes → ν → Prop) (cells : List (Bytes × Bytes))
    (es : List (Bytes × ν)) : Prop :=
  List.Forall₂ (fun cell e => cell.1 = e.1 ∧ R cell.2 e.2) cells es

namespace Stores

variable {ν : Type} {R : Bytes → ν → Prop} {cells : List (Bytes × Bytes)}
  {es : List (Bytes × ν)}

/-- The raw entry and the decoded entry under one position. -/
theorem entryAt_cases (h : Stores R cells es) {p : Option ℕ} (hp : Inside cells.length p) :
    (p = none) ∨ ∃ i cell e, p = some i ∧ cells[i]? = some cell ∧ es[i]? = some e ∧
      cell.1 = e.1 ∧ R cell.2 e.2 := by
  cases p with
  | none => exact .inl rfl
  | some i =>
      have hi := hp i rfl
      have hi' : i < es.length := h.length_eq ▸ hi
      have hcell := List.forall₂_iff_get.mp h |>.2 i hi hi'
      exact .inr ⟨i, cells[i], es[i], rfl, by simp [hi], by simp [hi'], hcell⟩

/-- Keys are stored as they are. -/
theorem key_eq (h : Stores R cells es) {it : NormalBlockIter} {p : Option ℕ}
    (hat : it.At cells p) : it.key = .ok ((entryAt es p).map Prod.fst) := by
  rw [hat.key_eq]
  rcases h.entryAt_cases hat.inside with rfl | ⟨i, cell, e, rfl, hcell, he, heq, -⟩
  · rfl
  · simp [hcell, he, heq]

theorem keys_eq (h : Stores R cells es) : cells.map Prod.fst = es.map Prod.fst := by
  induction h with
  | nil => rfl
  | cons hhead _ ih => simp [hhead.1, ih]

end Stores

/-! ## Data blocks -/

namespace DataEntryDecodeIter

/-- `raw` is a stored data value that decodes to `entry`. -/
inductive Encodes : Bytes → Entry Bytes → Prop
  | put (payload : Bytes) : Encodes (dataEntryVersion :: 0 :: payload) (.put payload)
  | delete (payload : Bytes) : Encodes (dataEntryVersion :: 1 :: payload) .delete

def headerOf : Entry Bytes → EntryHeader
  | .put _ => ⟨.put, 2⟩
  | .delete => ⟨.delete, 2⟩

theorem Encodes.decodeEntryHeader_eq {raw : Bytes} {entry : Entry Bytes}
    (h : Encodes raw entry) : decodeEntryHeader raw = .ok (headerOf entry) := by
  cases h <;> simp [decodeEntryHeader, headerOf]

/-- The cursor stands at position `p` of a block that holds `es`. -/
def At (dc : DataEntryDecodeIter NormalBlockIter) (es : List (Bytes × Entry Bytes))
    (p : Option ℕ) : Prop :=
  ∃ cells, dc.input.At cells p ∧ Stores Encodes cells es ∧
    dc.entryHeader = (entryAt es p).map (fun e => headerOf e.2)

variable {dc : DataEntryDecodeIter NormalBlockIter} {cells : List (Bytes × Bytes)}
  {es : List (Bytes × Entry Bytes)} {p : Option ℕ}

variable (dc) in
/-- Decoding the header reached by a call on the input. -/
theorem move_at (hstores : Stores Encodes cells es) {call : Ran Fault NormalBlockIter}
    {input : NormalBlockIter} (hcall : call = .ok input) (hat : input.At cells p) :
    ∃ dc', dc.move call = .ok dc' ∧ dc'.At es p := by
  refine ⟨⟨input, (entryAt es p).map (fun e => headerOf e.2)⟩, ?_, cells, hat, hstores, rfl⟩
  have hvalid : Cursor.valid input = p.isSome := hat.valid_eq
  have hvalue : Cursor.value input = .ok ((entryAt cells p).map Prod.snd) := hat.value_eq
  rcases hstores.entryAt_cases hat.inside with rfl | ⟨i, cell, e, rfl, hcell, he, -, henc⟩
  · simp [move, hcall, refresh, hvalid]
  · simp [move, hcall, refresh, hvalid, hvalue, hcell, he, henc.decodeEntryHeader_eq]

theorem At.inside (h : dc.At es p) : Inside es.length p := by
  obtain ⟨cells, hat, hstores, -⟩ := h
  exact hstores.length_eq ▸ hat.inside

theorem At.valid_eq (h : dc.At es p) : Cursor.valid dc = p.isSome := by
  obtain ⟨cells, hat, -, -⟩ := h
  exact hat.valid_eq

theorem At.key_eq (h : dc.At es p) : Cursor.key dc = .ok ((entryAt es p).map Prod.fst) := by
  obtain ⟨cells, hat, hstores, -⟩ := h
  exact hstores.key_eq hat

theorem At.value_eq (h : dc.At es p) :
    Cursor.value dc = .ok ((entryAt es p).map Prod.snd) := by
  obtain ⟨cells, hat, hstores, hheader⟩ := h
  have hvalid : Cursor.valid dc.input = p.isSome := hat.valid_eq
  have hvalue : Cursor.value dc.input = .ok ((entryAt cells p).map Prod.snd) := hat.value_eq
  change DataEntryDecodeIter.value dc = _
  rcases hstores.entryAt_cases hat.inside with rfl | ⟨i, cell, e, rfl, hcell, he, -, henc⟩
  · simp [value, hvalid]
  · obtain ⟨k, v⟩ := e
    obtain ⟨k', raw⟩ := cell
    simp only [entryAt_some, he, hcell, Option.map_some] at hheader hvalue ⊢
    cases henc <;>
      simp [value, hvalid, hvalue, hheader, headerOf, slice, bind, Except.bind, pure, Except.pure]

theorem At.next (h : dc.At es p) (d : Direction) :
    ∃ dc', Cursor.next d dc = .ok dc' ∧ dc'.At es (d.step es.length p) := by
  obtain ⟨cells, hat, hstores, -⟩ := h
  obtain ⟨it', hnext, hat'⟩ := hat.next d
  rw [← hstores.length_eq]
  exact move_at _ hstores hnext hat'

end DataEntryDecodeIter

/-- `block` parses to a block that holds the data entries `es`. -/
def DataBlock (block : Bytes) (es : List (Bytes × Entry Bytes)) : Prop :=
  ∃ it cells, NormalBlockIter.new block = .ok it ∧ it.Holds cells ∧
    Stores DataEntryDecodeIter.Encodes cells es

namespace DataBlock

variable {block : Bytes} {es : List (Bytes × Entry Bytes)}

/-- Parsing a data block and placing a fresh cursor at an end of it. -/
theorem load_first (h : DataBlock block es) (d : Direction) :
    ∃ it dc, NormalBlockIter.new block = .ok it ∧
      Cursor.seekToFirst d (DataEntryDecodeIter.new it) = .ok dc ∧
      dc.At es (d.first es.length) := by
  obtain ⟨it, cells, hnew, hholds, hstores⟩ := h
  obtain ⟨it', hseek, hat⟩ := hholds.seekToFirst d
  obtain ⟨dc, hdc, hdcat⟩ :=
    DataEntryDecodeIter.move_at (.new it) hstores hseek hat
  rw [hstores.length_eq] at hdcat
  exact ⟨it, dc, hnew, hdc, hdcat⟩

/-- Parsing a data block and seeking in it. -/
theorem load_target (h : DataBlock block es) (hes : Ascending es) (d : Direction)
    (t : Bytes) :
    ∃ it dc, NormalBlockIter.new block = .ok it ∧
      Cursor.seek d (DataEntryDecodeIter.new it) t = .ok dc ∧ dc.At es (d.target es t) := by
  obtain ⟨it, cells, hnew, hholds, hstores⟩ := h
  obtain ⟨it', hseek, hat⟩ := hholds.seek (hes.of_keys hstores.keys_eq) d t
  obtain ⟨dc, hdc, hdcat⟩ :=
    DataEntryDecodeIter.move_at (.new it) hstores hseek hat
  rw [target_of_keys hstores.keys_eq] at hdcat
  exact ⟨it, dc, hnew, hdc, hdcat⟩

end DataBlock

/-! ## Index blocks -/

namespace IndexEntryDecodeIter

/-- `raw` is a stored index value that decodes to the child position `child`. -/
inductive Encodes : Bytes → Position → Prop
  | intro (payload : Bytes) (hlen : payload.length = positionLen) :
      Encodes (indexValueVersion :: payload) ⟨UInt64.ofNat (ofBe payload)⟩

theorem Encodes.decodeHeader_eq {raw : Bytes} {child : Position} (h : Encodes raw child) :
    decodeHeader raw = .ok ⟨1⟩ := by
  obtain ⟨payload, hlen⟩ := h
  simp [decodeHeader, hlen]

/-- The cursor stands at position `p` of a block that holds `children`. -/
def At (ic : IndexEntryDecodeIter NormalBlockIter) (children : List (Bytes × Position))
    (p : Option ℕ) : Prop :=
  ∃ cells, ic.input.At cells p ∧ Stores Encodes cells children ∧ ic.header = p.map (fun _ => ⟨1⟩)

variable {ic : IndexEntryDecodeIter NormalBlockIter} {cells : List (Bytes × Bytes)}
  {children : List (Bytes × Position)} {p : Option ℕ}

variable (ic) in
theorem move_at (hstores : Stores Encodes cells children) {call : Ran Fault NormalBlockIter}
    {input : NormalBlockIter} (hcall : call = .ok input) (hat : input.At cells p) :
    ∃ ic', ic.move call = .ok ic' ∧ ic'.At children p := by
  refine ⟨⟨input, p.map (fun _ => ⟨1⟩)⟩, ?_, cells, hat, hstores, rfl⟩
  have hvalid : Cursor.valid input = p.isSome := hat.valid_eq
  have hvalue : Cursor.value input = .ok ((entryAt cells p).map Prod.snd) := hat.value_eq
  rcases hstores.entryAt_cases hat.inside with rfl | ⟨i, cell, e, rfl, hcell, -, -, henc⟩
  · simp [move, hcall, refresh, hvalid]
  · simp [move, hcall, refresh, hvalid, hvalue, hcell, henc.decodeHeader_eq]

theorem At.inside (h : ic.At children p) : Inside children.length p := by
  obtain ⟨cells, hat, hstores, -⟩ := h
  exact hstores.length_eq ▸ hat.inside

theorem At.valid_eq (h : ic.At children p) : Cursor.valid ic = p.isSome := by
  obtain ⟨cells, hat, -, -⟩ := h
  exact hat.valid_eq

theorem At.key_eq (h : ic.At children p) :
    Cursor.key ic = .ok ((entryAt children p).map Prod.fst) := by
  obtain ⟨cells, hat, hstores, -⟩ := h
  exact hstores.key_eq hat

/-- A positioned cursor yields the eight bytes of the child position. -/
theorem At.value_eq {i : ℕ} (h : ic.At children (some i)) (hi : i < children.length) :
    ∃ bytes, Cursor.value ic = .ok (some bytes) ∧
      Position.ofBytes bytes = .ok children[i].2 := by
  obtain ⟨cells, hat, hstores, hheader⟩ := h
  have hvalid : Cursor.valid ic.input = true := hat.valid_eq
  have hvalue : Cursor.value ic.input = .ok ((entryAt cells (some i)).map Prod.snd) :=
    hat.value_eq
  have hi' : i < cells.length := hat.inside i rfl
  obtain ⟨-, henc⟩ := (List.forall₂_iff_get.mp hstores).2 i hi' hi
  simp only [List.get_eq_getElem] at henc
  rw [entryAt_some, List.getElem?_eq_getElem hi', Option.map_some] at hvalue
  generalize cells[i].2 = raw at henc hvalue
  generalize children[i].2 = child at henc
  obtain ⟨payload, hlen⟩ := henc
  refine ⟨payload, ?_, by simp [Position.ofBytes, hlen, positionLen]⟩
  change IndexEntryDecodeIter.value ic = _
  simp [value, hvalid, hvalue, hheader, slice, bind, Except.bind, pure, Except.pure]

theorem At.next (h : ic.At children p) (d : Direction) :
    ∃ ic', Cursor.next d ic = .ok ic' ∧ ic'.At children (d.step children.length p) := by
  obtain ⟨cells, hat, hstores, -⟩ := h
  obtain ⟨it', hnext, hat'⟩ := hat.next d
  rw [← hstores.length_eq]
  exact move_at _ hstores hnext hat'

end IndexEntryDecodeIter

/-- `block` parses to a block that holds the index entries `children`. -/
def IndexBlock (block : Bytes) (children : List (Bytes × Position)) : Prop :=
  ∃ it cells, NormalBlockIter.new block = .ok it ∧ it.Holds cells ∧
    Stores IndexEntryDecodeIter.Encodes cells children

namespace IndexBlock

variable {block : Bytes} {children : List (Bytes × Position)}

theorem load_first (h : IndexBlock block children) (d : Direction) :
    ∃ it ic, NormalBlockIter.new block = .ok it ∧
      Cursor.seekToFirst d (IndexEntryDecodeIter.new it) = .ok ic ∧
      ic.At children (d.first children.length) := by
  obtain ⟨it, cells, hnew, hholds, hstores⟩ := h
  obtain ⟨it', hseek, hat⟩ := hholds.seekToFirst d
  obtain ⟨ic, hic, hicat⟩ :=
    IndexEntryDecodeIter.move_at (.new it) hstores hseek hat
  rw [hstores.length_eq] at hicat
  exact ⟨it, ic, hnew, hic, hicat⟩

theorem load_lowerBound (h : IndexBlock block children) (hchildren : Ascending children)
    (t : Bytes) :
    ∃ it ic, NormalBlockIter.new block = .ok it ∧
      IndexEntryDecodeIter.seekLowerBound t (IndexEntryDecodeIter.new it) = .ok ic ∧
      ic.At children (Direction.forward.target children t) := by
  obtain ⟨it, cells, hnew, hholds, hstores⟩ := h
  obtain ⟨it', hseek, hat⟩ := hholds.seek (hchildren.of_keys hstores.keys_eq) .forward t
  obtain ⟨ic, hic, hicat⟩ :=
    IndexEntryDecodeIter.move_at (.new it) hstores hseek hat
  rw [target_of_keys hstores.keys_eq] at hicat
  exact ⟨it, ic, hnew, hic, hicat⟩

end IndexBlock

end Todb
