import Todb.Model.Sst.Builder
import Todb.Verification.Sst.BlockCursor

/-! # Blocks written by the builders parse back

A finished block whose layout fits the block size and 32-bit offsets holds exactly the
entries it was built from. -/

namespace Todb

open Library

/-! ## Offset tables -/

theorem offsetsFrom_eq_cons (start : ℕ) (ns : List ℕ) :
    ∃ tail, offsetsFrom start ns = start :: tail := by
  cases ns with
  | nil => exact ⟨[], rfl⟩
  | cons n ns => exact ⟨_, rfl⟩

@[simp] theorem length_offsetsFrom (start : ℕ) (ns : List ℕ) :
    (offsetsFrom start ns).length = ns.length + 1 := by
  induction ns generalizing start with
  | nil => rfl
  | cons n ns ih => simp [offsetsFrom, ih]

theorem le_of_mem_offsetsFrom {start : ℕ} {ns : List ℕ} :
    ∀ offset ∈ offsetsFrom start ns, offset ≤ start + ns.sum := by
  induction ns generalizing start with
  | nil => simp [offsetsFrom]
  | cons n ns ih =>
      intro offset hmem
      rw [List.sum_cons]
      rcases List.mem_cons.mp hmem with rfl | hmem
      · omega
      · have := ih offset hmem
        omega

namespace NormalBlockIter

theorem readU32_append (front back : Bytes) (n start : ℕ) (hstart : start = front.length) :
    readU32 (front ++ beBytes 4 n ++ back) start = .ok (n % 2 ^ 32) := by
  have hslice := slice_append_middle front (beBytes 4 n) back hstart
    (show start + 4 = _ by simp [hstart])
  rw [readU32, hslice]
  simp [bind, Except.bind, pure, Except.pure, ofBe_beBytes]

/-- An offset table reads back modulo 2^32. -/
theorem readOffsets_append (offsets : List ℕ) (front back : Bytes) (start : ℕ)
    (hstart : start = front.length) :
    readOffsets (front ++ offsets.flatMap (beBytes 4) ++ back) offsets.length start =
      .ok (offsets.map (· % 2 ^ 32)) := by
  induction offsets generalizing front start with
  | nil => rfl
  | cons offset offsets ih =>
      have hhead := readU32_append front (offsets.flatMap (beBytes 4) ++ back) offset start hstart
      have htail := ih (front ++ beBytes 4 offset) (start + 4) (by simp [hstart])
      simp only [List.flatMap_cons, List.append_assoc] at hhead htail ⊢
      simp [readOffsets, hhead, htail, bind, Except.bind, pure, Except.pure]

/-- The piece between two neighbouring offsets. -/
theorem cell_append (pieces : List Bytes) (front back : Bytes) (start : ℕ)
    (hstart : start = front.length) (i : ℕ) (hi : i < pieces.length) :
    cell (front ++ pieces.flatten ++ back) (offsetsFrom start (pieces.map List.length)) i =
      .ok pieces[i] := by
  induction pieces generalizing front start i with
  | nil => simp at hi
  | cons piece pieces ih =>
      cases i with
      | zero =>
          obtain ⟨tail, htail⟩ := offsetsFrom_eq_cons (start + piece.length)
            (pieces.map List.length)
          have hslice := slice_append_middle front piece (pieces.flatten ++ back) hstart
            (show start + piece.length = _ by rw [hstart])
          simp only [List.append_assoc] at hslice
          simp [cell, offsetsFrom, htail, index, hslice, bind, Except.bind]
      | succ i =>
          have hrest := ih (front ++ piece) (start + piece.length) (by simp [hstart]) i
            (by simpa using hi)
          simp only [List.append_assoc] at hrest
          simpa [cell, offsetsFrom, index] using hrest

end NormalBlockIter

/-! ## Finished blocks -/

theorem length_flatMap_beBytes (offsets : List ℕ) :
    (offsets.flatMap (beBytes 4)).length = 4 * offsets.length := by
  induction offsets with
  | nil => rfl
  | cons offset offsets ih =>
      simp only [List.flatMap_cons, List.length_append, ih, length_beBytes, List.length_cons]
      omega

/-- The bytes a cell takes in a block, its four offset bytes for key and value included. -/
def cellSize (cell : Bytes × Bytes) : ℕ := cell.1.length + cell.2.length + 8

theorem length_flatten_keys (cells : List (Bytes × Bytes)) :
    (cells.map Prod.fst).flatten.length = keysLen cells := by
  simp [keysLen, List.length_flatten, Function.comp_def]

theorem length_header (cells : List (Bytes × Bytes)) :
    (beBytes 4 cells.length ++ (keyOffsets cells).flatMap (beBytes 4) ++
      (valOffsets cells).flatMap (beBytes 4)).length = headerSize cells := by
  simp only [List.length_append, length_beBytes, length_flatMap_beBytes, keyOffsets,
    valOffsets, length_offsetsFrom, List.length_map, headerSize]
  omega

theorem length_blockBody (cells : List (Bytes × Bytes)) :
    (blockBody cells).length = blockFixedHeaderSize + (cells.map cellSize).sum := by
  rw [blockBody, List.length_append, List.length_append, length_header, length_flatten_keys]
  induction cells with
  | nil => rfl
  | cons cell cells ih =>
      simp only [headerSize, keysLen, List.map_cons, List.flatten_cons, List.length_append,
        List.sum_cons, cellSize, List.length_cons] at ih ⊢
      omega

/-- Every offset points into the layout. -/
theorem offset_le_length (cells : List (Bytes × Bytes)) :
    (∀ offset ∈ keyOffsets cells, offset ≤ (blockBody cells).length) ∧
      (∀ offset ∈ valOffsets cells, offset ≤ (blockBody cells).length) := by
  have hvalues : (cells.map Prod.snd).flatten.length =
      (cells.map fun cell => cell.2.length).sum := by
    simp [List.length_flatten, Function.comp_def]
  have htotal : (blockBody cells).length =
      headerSize cells + keysLen cells + (cells.map fun cell => cell.2.length).sum := by
    rw [blockBody, List.length_append, List.length_append, length_header, length_flatten_keys,
      hvalues]
  refine ⟨fun offset hmem => ?_, fun offset hmem => ?_⟩
  · have hle : offset ≤ headerSize cells + keysLen cells := le_of_mem_offsetsFrom offset hmem
    omega
  · have hle := le_of_mem_offsetsFrom offset hmem
    omega

@[simp] theorem length_finishBlock (blockSize : ℕ) (cells : List (Bytes × Bytes)) :
    (finishBlock blockSize cells).length = blockSize := by
  simp [finishBlock, resize]
  omega

theorem finishBlock_eq {blockSize : ℕ} {cells : List (Bytes × Bytes)}
    (hfit : (blockBody cells).length ≤ blockSize) :
    finishBlock blockSize cells =
      blockBody cells ++ List.replicate (blockSize - (blockBody cells).length) 0 := by
  rw [finishBlock, resize, List.take_of_length_le]
  simp
  omega

section Parse

variable {cells : List (Bytes × Bytes)} (pad : Bytes)

/-- A layout of any size: the offsets are written and read modulo 2^32. -/
theorem new_blockBody_mod (hlen : cells.length < 2 ^ 32) :
    NormalBlockIter.new (blockBody cells ++ pad) =
      .ok ⟨blockBody cells ++ pad, (keyOffsets cells).map (· % 2 ^ 32),
        (valOffsets cells).map (· % 2 ^ 32), cells.length, none⟩ := by
  have hcount := NormalBlockIter.readU32_append [] ((keyOffsets cells).flatMap (beBytes 4) ++
    ((valOffsets cells).flatMap (beBytes 4) ++ ((cells.map Prod.fst).flatten ++
    ((cells.map Prod.snd).flatten ++ pad)))) cells.length 0 rfl
  have hkeys := NormalBlockIter.readOffsets_append (keyOffsets cells) (beBytes 4 cells.length)
    ((valOffsets cells).flatMap (beBytes 4) ++ ((cells.map Prod.fst).flatten ++
    ((cells.map Prod.snd).flatten ++ pad))) 4 (by simp)
  have hvals := NormalBlockIter.readOffsets_append (valOffsets cells)
    (beBytes 4 cells.length ++ (keyOffsets cells).flatMap (beBytes 4))
    ((cells.map Prod.fst).flatten ++ ((cells.map Prod.snd).flatten ++ pad))
    (4 + 4 * (cells.length + 1))
    (by
      rw [List.length_append, length_beBytes, length_flatMap_beBytes, keyOffsets,
        length_offsetsFrom, List.length_map])
  have hkeysLen : (keyOffsets cells).length = cells.length + 1 := by simp [keyOffsets]
  have hvalsLen : (valOffsets cells).length = cells.length + 1 := by simp [valOffsets]
  rw [hkeysLen] at hkeys
  rw [hvalsLen] at hvals
  rw [Nat.mod_eq_of_lt hlen] at hcount
  simp only [List.append_assoc, List.nil_append] at hcount hkeys hvals
  simp only [NormalBlockIter.new, blockBody, List.append_assoc, hcount, hkeys, hvals, bind,
    Except.bind, pure, Except.pure]

theorem new_blockBody (hsmall : (blockBody cells).length < 2 ^ 32) :
    NormalBlockIter.new (blockBody cells ++ pad) =
      .ok ⟨blockBody cells ++ pad, keyOffsets cells, valOffsets cells, cells.length, none⟩ := by
  obtain ⟨hkey, hval⟩ := offset_le_length cells
  have hlen : cells.length < 2 ^ 32 := by
    rw [blockBody, List.length_append, List.length_append, length_header, headerSize] at hsmall
    omega
  have hmod : ∀ offsets : List ℕ, (∀ offset ∈ offsets, offset ≤ (blockBody cells).length) →
      offsets.map (· % 2 ^ 32) = offsets := by
    intro offsets hoffsets
    conv_rhs => rw [← List.map_id offsets]
    exact List.map_congr_left fun offset hmem =>
      Nat.mod_eq_of_lt ((hoffsets offset hmem).trans_lt hsmall)
  rw [new_blockBody_mod pad hlen, hmod _ hkey, hmod _ hval]

theorem keyAt_blockBody (i : ℕ) (hi : i < cells.length) :
    NormalBlockIter.cell (blockBody cells ++ pad) (keyOffsets cells) i = .ok cells[i].1 := by
  have h := NormalBlockIter.cell_append (cells.map Prod.fst) _
    ((cells.map Prod.snd).flatten ++ pad) _ (length_header cells).symm i (by simpa using hi)
  rw [List.map_map] at h
  simp only [List.getElem_map, List.append_assoc] at h
  simp only [blockBody, List.append_assoc]
  exact h

theorem valueAt_blockBody (i : ℕ) (hi : i < cells.length) :
    NormalBlockIter.cell (blockBody cells ++ pad) (valOffsets cells) i = .ok cells[i].2 := by
  have h := NormalBlockIter.cell_append (cells.map Prod.snd)
    (beBytes 4 cells.length ++ (keyOffsets cells).flatMap (beBytes 4) ++
      (valOffsets cells).flatMap (beBytes 4) ++ (cells.map Prod.fst).flatten) pad
    (headerSize cells + keysLen cells)
    (by rw [List.length_append, length_header, length_flatten_keys]) i (by simpa using hi)
  rw [List.map_map] at h
  simp only [List.getElem_map, List.append_assoc] at h
  simp only [blockBody, List.append_assoc]
  exact h

end Parse

/-- A finished block parses back to the cells it was built from. -/
theorem finishBlock_holds {blockSize : ℕ} {cells : List (Bytes × Bytes)}
    (hfit : (blockBody cells).length ≤ blockSize) (hsmall : (blockBody cells).length < 2 ^ 32) :
    ∃ it, NormalBlockIter.new (finishBlock blockSize cells) = .ok it ∧ it.Holds cells := by
  rw [finishBlock_eq hfit]
  exact ⟨_, new_blockBody _ hsmall, rfl, keyAt_blockBody _, valueAt_blockBody _⟩

theorem encodes_encodeEntry (entry : Entry Bytes) :
    DataEntryDecodeIter.Encodes (encodeEntry entry) entry := by
  cases entry with
  | put value => exact .put value
  | delete => exact .delete []

theorem encodes_encodeChild (child : Position) :
    IndexEntryDecodeIter.Encodes (encodeChild child) child := by
  have hof : ofBe (beBytes 8 child.offset.toNat) = child.offset.toNat :=
    ofBe_beBytes_of_lt (by simpa using child.offset.toNat_lt)
  have h := IndexEntryDecodeIter.Encodes.intro (beBytes 8 child.offset.toNat)
    (by simp [positionLen])
  rw [hof, UInt64.ofNat_toNat] at h
  exact h

theorem stores_map {α ν : Type} {R : Bytes → ν → Prop} (key : α → Bytes) (raw : α → Bytes)
    (value : α → ν) (hR : ∀ a, R (raw a) (value a)) (l : List α) :
    Stores R (l.map fun a => (key a, raw a)) (l.map fun a => (key a, value a)) := by
  induction l with
  | nil => exact .nil
  | cons a l ih => exact .cons ⟨rfl, hR a⟩ ih

/-- A finished data block holds its entries. -/
theorem dataBlock_finishBlock {blockSize : ℕ} {es : List (Bytes × Entry Bytes)}
    (hfit : (blockBody (es.map fun e => (e.1, encodeEntry e.2))).length ≤ blockSize)
    (hsmall : (blockBody (es.map fun e => (e.1, encodeEntry e.2))).length < 2 ^ 32) :
    DataBlock (finishBlock blockSize (es.map fun e => (e.1, encodeEntry e.2))) es := by
  obtain ⟨it, hnew, hholds⟩ := finishBlock_holds hfit hsmall
  have hstores := stores_map (α := Bytes × Entry Bytes) Prod.fst (fun e => encodeEntry e.2) Prod.snd
    (fun e => encodes_encodeEntry e.2) es
  exact ⟨it, _, hnew, hholds, by simpa using hstores⟩

/-- A finished index block holds its children. -/
theorem indexBlock_finishBlock {blockSize : ℕ} {es : List IndexEntry}
    (hfit : (blockBody (es.map fun e => (e.endKey, encodeChild e.child))).length ≤ blockSize)
    (hsmall : (blockBody (es.map fun e => (e.endKey, encodeChild e.child))).length < 2 ^ 32) :
    IndexBlock (finishBlock blockSize (es.map fun e => (e.endKey, encodeChild e.child)))
      (es.map fun e => (e.endKey, e.child)) := by
  obtain ⟨it, hnew, hholds⟩ := finishBlock_holds hfit hsmall
  exact ⟨it, _, hnew, hholds, stores_map IndexEntry.endKey (fun e => encodeChild e.child)
    IndexEntry.child (fun e => encodes_encodeChild e.child) es⟩

end Todb
