import Todb.Model.Sst.Builder

/-! # Files as sequences of blocks

What block writers leave behind and what block readers find there. -/

namespace Todb

open Library

/-! ## Reading complete blocks -/

/-- The complete block of `file` at byte `start`. -/
def blockAt (file : Bytes) (blockSize start : ℕ) : Option Bytes :=
  if start + blockSize ≤ file.length then some ((file.drop start).take blockSize) else none

/-- Complete blocks stay in place when the file grows. -/
theorem blockAt_append {file block : Bytes} {blockSize start : ℕ} (more : Bytes)
    (h : blockAt file blockSize start = some block) :
    blockAt (file ++ more) blockSize start = some block := by
  unfold blockAt at h ⊢
  split at h
  · rename_i hle
    rw [if_pos (by simp; omega), List.drop_append_of_le_length (by omega),
      List.take_append_of_le_length (by simp; omega)]
    exact h
  · cases h

theorem blockAt_append_self (file block : Bytes) :
    blockAt (file ++ block) block.length file.length = some block := by
  simp [blockAt]

/-- A reader that serves the complete blocks of `file`. -/
def Serves {ρ : Type} [BlockReader ρ] (reader : ρ) (file : Bytes) (blockSize : ℕ) : Prop :=
  ∀ position block, blockAt file blockSize position.offset.toNat = some block →
    BlockReader.readBlock reader position = .ok block

/-- A reader that serves the complete blocks of `file` that start at multiples of the block
size. -/
def ServesBlocks {ρ : Type} [BlockReader ρ] (reader : ρ) (file : Bytes) (blockSize : ℕ) : Prop :=
  ∀ position block, blockSize ∣ position.offset.toNat →
    blockAt file blockSize position.offset.toNat = some block →
    BlockReader.readBlock reader position = .ok block

theorem Serves.blocks {ρ : Type} [BlockReader ρ] {reader : ρ} {file : Bytes} {blockSize : ℕ}
    (h : Serves reader file blockSize) : ServesBlocks reader file blockSize :=
  fun position block _ hblock => h position block hblock

/-- The blocks of a file at multiples of the block size, and nothing else. What is a subtree for
this reader has aligned positions only. -/
structure BlockGrid where
  file : Bytes
  blockSize : ℕ

instance : BlockReader BlockGrid where
  readBlock self position :=
    match blockAt self.file self.blockSize position.offset.toNat with
    | some block => if self.blockSize ∣ position.offset.toNat then .ok block else .error .panic
    | none => .error .panic

theorem readBlock_grid {file block : Bytes} {blockSize : ℕ} {position : Position} :
    BlockReader.readBlock (⟨file, blockSize⟩ : BlockGrid) position = .ok block ↔
      blockSize ∣ position.offset.toNat ∧
        blockAt file blockSize position.offset.toNat = some block := by
  simp only [BlockReader.readBlock]
  cases blockAt file blockSize position.offset.toNat with
  | none => simp
  | some block' =>
      by_cases hdvd : blockSize ∣ position.offset.toNat <;> simp [hdvd]

theorem serves_inMemory (file : Bytes) (blockSize : ℕ) :
    Serves (⟨file, blockSize⟩ : InMemoryBlockReader) file blockSize := by
  intro position block h
  unfold blockAt at h
  split at h
  · rename_i hle
    obtain rfl := Option.some.inj h
    have hmin : min (position.offset.toNat + blockSize) file.length =
        position.offset.toNat + blockSize := Nat.min_eq_left hle
    simp only [BlockReader.readBlock]
    rw [if_neg (by omega), hmin, slice_eq_ok (Nat.le_add_right _ _) hle, Nat.add_sub_cancel_left]
  · cases h

theorem serves_file (file : Bytes) (blockSize : ℕ) :
    Serves (⟨file, blockSize⟩ : FileBlockReader) file blockSize := by
  intro position block h
  unfold blockAt at h
  split at h
  · rename_i hle
    obtain rfl := Option.some.inj h
    simp only [BlockReader.readBlock]
    rw [if_pos hle]
  · cases h

/-! ## Writers that append -/

/-- `Wrote w file` says that the writer's target holds the bytes `file`; a successful write
appends at the returned position. -/
class LawfulBlockWriter (ω : Type) [BlockWriter ω] where
  Wrote : ω → Bytes → Prop
  writeBlock_ok : ∀ {writer writer' : ω} {file data : Bytes} {position : Position},
    Wrote writer file → BlockWriter.writeBlock writer data = .ok (position, writer') →
    position.offset.toNat = file.length ∧ Wrote writer' (file ++ data) ∧
      (file ++ data).length ≤ isizeMax

/-- An offset that counts written bytes stays exact below `isize::MAX`. -/
theorem toNat_add_length {offset : UInt64} {file data : Bytes}
    (hoffset : offset.toNat = file.length) (hle : file.length + data.length ≤ isizeMax) :
    (offset + UInt64.ofNat data.length).toNat = (file ++ data).length := by
  have hdata : (UInt64.ofNat data.length).toNat = data.length := by
    rw [UInt64.toNat_ofNat']
    exact Nat.mod_eq_of_lt (by unfold isizeMax at hle; omega)
  rw [UInt64.toNat_add, hdata, hoffset, List.length_append]
  exact Nat.mod_eq_of_lt (by unfold isizeMax at hle; omega)

instance : LawfulBlockWriter InMemoryBlockWriter where
  Wrote writer file := writer.buf = file ∧ writer.nextOffset.toNat = file.length
  writeBlock_ok := by
    rintro writer writer' file data position ⟨rfl, hoffset⟩ hwrite
    simp only [BlockWriter.writeBlock] at hwrite
    split at hwrite
    · rename_i hle
      obtain ⟨rfl, rfl⟩ := Prod.mk.inj (Except.ok.inj hwrite)
      exact ⟨hoffset, ⟨rfl, toNat_add_length hoffset hle⟩, by simpa using hle⟩
    · cases hwrite

theorem wrote_inMemory_new : LawfulBlockWriter.Wrote InMemoryBlockWriter.new [] := ⟨rfl, rfl⟩

/-- What an in-memory writer wrote can be read back from its buffer. -/
theorem serves_written {writer : InMemoryBlockWriter} {file : Bytes} {blockSize : ℕ}
    (hwrote : LawfulBlockWriter.Wrote writer file) :
    Serves (⟨writer.buf, blockSize⟩ : InMemoryBlockReader) file blockSize := by
  obtain ⟨rfl, -⟩ := hwrote
  exact serves_inMemory _ _

instance : LawfulBlockWriter FileBlockWriter where
  Wrote writer file := writer.file = file ∧ writer.nextOffset.toNat = file.length
  writeBlock_ok := by
    rintro writer writer' file data position ⟨rfl, hoffset⟩ hwrite
    simp only [BlockWriter.writeBlock] at hwrite
    split at hwrite
    · rename_i hle
      obtain ⟨rfl, rfl⟩ := Prod.mk.inj (Except.ok.inj hwrite)
      exact ⟨hoffset, ⟨rfl, toNat_add_length hoffset hle⟩, by simpa using hle⟩
    · cases hwrite

/-- An SST writer that appends blocks and closes the file with a trailer for the footer. -/
class LawfulSstWriter (ω : Type) [SstWriter ω] where
  Wrote : ω → Bytes → Prop
  Trailer : SstFooter → Bytes → Prop
  writeBlock_ok : ∀ {writer writer' : ω} {file data : Bytes} {position : Position},
    Wrote writer file → SstWriter.writeBlock writer data = .ok (position, writer') →
    position.offset.toNat = file.length ∧ Wrote writer' (file ++ data) ∧
      (file ++ data).length ≤ isizeMax
  writeFooter_ok : ∀ {writer writer' : ω} {file : Bytes} {footer : SstFooter}
    {position : Position}, Wrote writer file →
    SstWriter.writeFooter writer footer = .ok (position, writer') →
    ∃ trailer, Trailer footer trailer ∧ Wrote writer' (file ++ trailer)

/-- Inversion of a bind that succeeded. -/
theorem bind_eq_ok {α β : Type} {x : Outcome α} {f : α → Outcome β} {b : β} :
    (x >>= f) = .ok b ↔ ∃ a, x = .ok a ∧ f a = .ok b := by
  cases x <;> simp [bind, Except.bind]

instance {ω : Type} [BlockWriter ω] [LawfulBlockWriter ω] :
    LawfulSstWriter (DefaultSstWriter ω) where
  Wrote writer file := LawfulBlockWriter.Wrote writer.inner file
  Trailer footer trailer := trailer = footer.encode
  writeBlock_ok := by
    intro writer writer' file data position hwrote hwrite
    simp only [SstWriter.writeBlock] at hwrite
    split at hwrite
    · obtain ⟨⟨position', inner⟩, hinner, hret⟩ := bind_eq_ok.mp hwrite
      obtain ⟨rfl, rfl⟩ := Prod.mk.inj (Except.ok.inj hret)
      exact LawfulBlockWriter.writeBlock_ok hwrote hinner
    · cases hwrite
  writeFooter_ok := by
    intro writer writer' file footer position hwrote hwrite
    obtain ⟨⟨position', inner⟩, hinner, hret⟩ := bind_eq_ok.mp hwrite
    obtain ⟨rfl, rfl⟩ := Prod.mk.inj (Except.ok.inj hret)
    exact ⟨_, rfl, (LawfulBlockWriter.writeBlock_ok hwrote hinner).2.1⟩

end Todb
