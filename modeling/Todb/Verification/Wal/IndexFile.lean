import Todb.Model.Wal.IndexFile
import Todb.Verification.Sst.Footer
import Todb.Verification.Storage.Files

/-! # The footer of an index file

The writer puts the body of the footer at the start of the last block and its length at the
end; the reader expects the body right before the length. -/

namespace Todb

open Library

/-! ## The footer without keys -/

namespace SstFooter

/-- The footer of an SST without entries. -/
def zero : SstFooter := ⟨⟨0⟩, 0, [], []⟩

theorem body_zero : zero.body = List.replicate 20 0 := by decide

theorem ofBe_replicate (n : ℕ) : ofBe (List.replicate n 0) = 0 := by
  rw [ofBe, List.reverse_replicate]
  induction n with
  | zero => rfl
  | succ n ih => simp [List.replicate_succ, ofLe, ih]

/-- Only the footer without keys has a body of zeros. -/
theorem eq_zero_of_body {footer : SstFooter} (hlt : footer.body.length < 2 ^ 32)
    (h : footer.body = List.replicate footer.body.length 0) : footer = zero := by
  have hlen : ofBe (beBytes 4 footer.body.length) = footer.body.length := ofBe_beBytes_of_lt hlt
  have hge : 20 ≤ footer.body.length := by
    rw [length_body]
    omega
  have hcut : ∀ start, ofBe ((footer.body.drop start).take 4) = 0 := by
    intro start
    rw [h, List.drop_replicate, List.take_replicate, ofBe_replicate]
  have hdecode := decode_body (by simp) hlen
  rw [decode_eq (by simp) hlen hge, hcut, hcut] at hdecode
  by_cases htwenty : footer.body.length = 20
  · exact body_injective (by rw [h, htwenty, body_zero]) hlt
  · rw [if_pos (fun heq => htwenty heq.symm)] at hdecode
    cases hdecode

end SstFooter

/-! ## Padding -/

/-- A string that reads the same behind a zero padding consists of zeros. -/
theorem eq_replicate_of_shift {b : Bytes} {pad : ℕ} (hpad : 0 < pad)
    (h : (b ++ List.replicate pad 0).drop pad = b) : b = List.replicate b.length 0 := by
  have hzero : ∀ k i, b.length ≤ i + k → b[i]?.getD 0 = 0 := by
    intro k
    induction k with
    | zero =>
        intro i hi
        rw [List.getElem?_eq_none (by omega)]
        rfl
    | succ k ih =>
        intro i hi
        rw [← h, List.getElem?_drop]
        by_cases hlt : pad + i < b.length
        · rw [List.getElem?_append_left hlt]
          exact ih _ (by omega)
        · rw [List.getElem?_append_right (by omega), List.getElem?_replicate]
          split <;> rfl
  refine List.ext_getElem (by simp) fun i hi _ => ?_
  have := hzero b.length i (by omega)
  rw [List.getElem?_eq_getElem hi, Option.getD_some] at this
  rw [this, List.getElem_replicate]

namespace Wal

/-! ## The writer -/

theorem pwriteAll_length (file data : Bytes) : pwriteAll file data file.length = file ++ data := by
  simp [pwriteAll]

instance : LawfulBlockWriter SegmentIndexBlockWriter where
  Wrote writer file :=
    writer.file = file ∧ writer.nextOffset = file.length ∧ file.length ≤ isizeMax
  writeBlock_ok := by
    rintro writer writer' file data position ⟨rfl, hoffset, hle⟩ hwrite
    simp only [BlockWriter.writeBlock] at hwrite
    split at hwrite
    · rename_i hlen
      split at hwrite
      · rename_i hmax
        obtain ⟨rfl, rfl⟩ := Prod.mk.inj (Except.ok.inj hwrite)
        rw [hoffset] at hmax ⊢
        have hsize : (writer.file ++ data).length = writer.file.length + writer.blockSize := by
          rw [List.length_append, hlen]
        refine ⟨?_, ⟨pwriteAll_length _ _, hsize.symm, hsize ▸ hmax⟩, hsize ▸ hmax⟩
        rw [UInt64.toNat_ofNat']
        exact Nat.mod_eq_of_lt (by unfold isizeMax at hle; omega)
      · cases hwrite
    · cases hwrite

theorem writeFooter_eq_ok {writer writer' : ODirectSstWriter} {footer : SstFooter}
    {position : Position} (h : SstWriter.writeFooter writer footer = .ok (position, writer')) :
    footer.encode.length ≤ writer.blockSize ∧
      BlockWriter.writeBlock writer.inner (footerBlock writer.blockSize footer.encode) =
        .ok (position, writer'.inner) := by
  simp only [SstWriter.writeFooter] at h
  split at h
  · rename_i hfits
    obtain ⟨⟨position', inner⟩, hinner, hret⟩ := bind_eq_ok.mp h
    obtain ⟨rfl, rfl⟩ := Prod.mk.inj (Except.ok.inj hret)
    exact ⟨hfits.2, hinner⟩
  · cases h

instance : LawfulSstWriter ODirectSstWriter where
  Wrote writer file := LawfulBlockWriter.Wrote writer.inner file
  Trailer footer trailer := ∃ blockSize, footer.encode.length ≤ blockSize ∧
    trailer = footerBlock blockSize footer.encode
  writeBlock_ok := by
    intro writer writer' file data position hwrote hwrite
    obtain ⟨⟨position', inner⟩, hinner, hret⟩ := bind_eq_ok.mp hwrite
    obtain ⟨rfl, rfl⟩ := Prod.mk.inj (Except.ok.inj hret)
    exact LawfulBlockWriter.writeBlock_ok hwrote hinner
  writeFooter_ok := by
    intro writer writer' file footer position hwrote hwrite
    obtain ⟨hfits, hinner⟩ := writeFooter_eq_ok hwrite
    exact ⟨_, ⟨_, hfits, rfl⟩, (LawfulBlockWriter.writeBlock_ok hwrote hinner).2.1⟩

theorem wrote_create (blockSize : ℕ) :
    LawfulBlockWriter.Wrote (SegmentIndexBlockWriter.create [] blockSize) [] :=
  ⟨rfl, rfl, Nat.zero_le _⟩

theorem writeBlocks_ok {blocks : List Bytes} {writer writer' : ODirectSstWriter} {file : Bytes}
    (hwrote : LawfulSstWriter.Wrote writer file) (h : writeBlocks blocks writer = .ok writer') :
    LawfulSstWriter.Wrote writer' (file ++ blocks.flatten) ∧
      writer'.blockSize = writer.blockSize := by
  induction blocks generalizing writer file with
  | nil =>
      obtain rfl := Except.ok.inj h
      exact ⟨by simpa using hwrote, rfl⟩
  | cons block blocks ih =>
      obtain ⟨⟨position, mid⟩, hwrite, hrest⟩ := bind_eq_ok.mp h
      obtain ⟨-, hmid, -⟩ := LawfulSstWriter.writeBlock_ok hwrote hwrite
      obtain ⟨hend, hsize⟩ := ih hmid hrest
      obtain ⟨⟨position', inner⟩, -, hret⟩ := bind_eq_ok.mp hwrite
      obtain ⟨-, rfl⟩ := Prod.mk.inj (Except.ok.inj hret)
      exact ⟨by simpa using hend, hsize⟩

/-- The file consists of the blocks and the footer block. -/
theorem writeIndexFile_ok {blockSize : ℕ} {blocks : List Bytes} {footer : SstFooter}
    {file : Bytes} (h : writeIndexFile blockSize blocks footer = .ok file) :
    footer.encode.length ≤ blockSize ∧
      file = blocks.flatten ++ footerBlock blockSize footer.encode := by
  obtain ⟨writer, hblocks, h⟩ := bind_eq_ok.mp h
  obtain ⟨⟨position, writer'⟩, hfooter, hret⟩ := bind_eq_ok.mp h
  obtain rfl := Except.ok.inj hret
  obtain ⟨hwrote, hsize⟩ := writeBlocks_ok (wrote_create blockSize) hblocks
  obtain ⟨hfits, hinner⟩ := writeFooter_eq_ok hfooter
  replace hsize : writer.blockSize = blockSize := hsize
  rw [hsize] at hfits hinner
  exact ⟨hfits, by simpa using (LawfulBlockWriter.writeBlock_ok hwrote hinner).2.1.1⟩

/-! ## The reader -/

/-- Bytes inside the file are read as they are. -/
theorem rawRead_eq {blockSize offset len : ℕ} {file : Bytes} (hpos : 0 < blockSize)
    (h : offset + len ≤ file.length) :
    rawRead blockSize file offset len = (file.drop offset).take len := by
  have hle : offset / blockSize * blockSize ≤ offset := Nat.div_mul_le_self _ _
  set start := offset / blockSize * blockSize with hstart
  obtain ⟨k, hk⟩ := Nat.exists_eq_add_of_le hle
  have hcover : k + len ≤ (k + len + blockSize - 1) / blockSize * blockSize := by
    have := Nat.lt_div_mul_add hpos (a := k + len + blockSize - 1)
    omega
  rw [rawRead, ← hstart, hk, Nat.add_sub_cancel_left, preadAll]
  generalize (k + len + blockSize - 1) / blockSize * blockSize = total at hcover
  rw [List.drop_append_of_le_length (by simp; omega), List.take_append_of_le_length (by simp; omega),
    List.drop_take, List.drop_drop, List.take_take, Nat.min_eq_left (by omega)]

/-- The reader takes the body to end where the trailer starts. -/
theorem readFooter_eq_ok {blockSize : ℕ} {front middle trailer : Bytes} {footer : SstFooter}
    (hpos : 0 < blockSize) (htrailer : trailer.length = 4) (hle : ofBe trailer ≤ middle.length) :
    readFooter blockSize (front ++ (middle ++ trailer)) = .ok footer ↔
      middle.drop (middle.length - ofBe trailer) = footer.body := by
  set file := front ++ (middle ++ trailer) with hfile
  have hsize : file.length = front.length + middle.length + 4 := by
    simp [hfile, htrailer]
    omega
  have hlast : rawRead blockSize file (file.length - 4) 4 = trailer := by
    rw [rawRead_eq hpos (by omega), hfile, ← List.append_assoc,
      List.drop_left' (by simp [htrailer]; omega), ← htrailer, List.take_length]
  have hfooter : rawRead blockSize file (file.length - (ofBe trailer + 4)) (ofBe trailer + 4) =
      middle.drop (middle.length - ofBe trailer) ++ trailer := by
    have hstart : file.length - (ofBe trailer + 4) =
        front.length + (middle.length - ofBe trailer) := by omega
    rw [rawRead_eq hpos (by omega), List.take_of_length_le (by simp; omega), hstart, hfile,
      ← List.drop_drop, List.drop_left, List.drop_append_of_le_length (by omega)]
  have hdecode : SstFooter.decode (middle.drop (middle.length - ofBe trailer) ++ trailer) =
      .ok footer ↔ middle.drop (middle.length - ofBe trailer) = footer.body :=
    SstFooter.decode_append htrailer (by simp; omega)
  rw [readFooter, if_neg (by omega), hlast, if_neg (by omega), hfooter]
  constructor
  · intro h
    split at h
    · rename_i f hf
      obtain rfl := Except.ok.inj h
      exact hdecode.mp hf
    · cases h
    · cases h
  · intro h
    rw [hdecode.mpr h]

/-- The footer written is the footer read exactly if its encoding fills the last block, its
length being a 32-bit number, or if it is the footer of an SST without entries: otherwise
the reader takes the padding for the end of the body. -/
theorem readFooter_writeIndexFile_iff {blockSize : ℕ} {blocks : List Bytes} {footer : SstFooter}
    {file : Bytes} (hwrite : writeIndexFile blockSize blocks footer = .ok file) :
    readFooter blockSize file = .ok footer ↔
      footer.encode.length = blockSize ∧ footer.encode.length < 2 ^ 32 + 4 ∨
        footer = ⟨⟨0⟩, 0, [], []⟩ := by
  obtain ⟨hfits, rfl⟩ := writeIndexFile_ok hwrite
  have hlen := footer.length_encode
  have hge := footer.length_body
  set pad := blockSize - 4 - footer.body.length with hpad
  set trailer := beBytes 4 footer.body.length with htrailer
  have hblock : footerBlock blockSize footer.encode =
      footer.body ++ List.replicate pad 0 ++ trailer := by
    rw [footerBlock, hlen, Nat.add_sub_cancel, footer.encode_eq, List.take_left, List.drop_left]
  have htrailerLen : ofBe trailer = footer.body.length % 2 ^ 32 := ofBe_beBytes _ _
  have hmiddle : (footer.body ++ List.replicate pad 0).length = footer.body.length + pad := by simp
  have hmod := Nat.mod_le footer.body.length (2 ^ 32)
  rw [hblock, readFooter_eq_ok (by omega) (by simp [htrailer]) (by omega), htrailerLen, hmiddle]
  constructor
  · intro hread
    have hlt : footer.body.length < 2 ^ 32 := by
      have hcut := congrArg List.length hread
      rw [List.length_drop, hmiddle] at hcut
      have := Nat.mod_lt footer.body.length (Nat.two_pow_pos 32)
      omega
    rw [Nat.mod_eq_of_lt hlt, Nat.add_sub_cancel_left] at hread
    by_cases hzero : pad = 0
    · exact .inl (by omega)
    · exact .inr (SstFooter.eq_zero_of_body hlt
        (eq_replicate_of_shift (Nat.pos_of_ne_zero hzero) hread))
  · rintro (⟨hfull, hlt⟩ | rfl)
    · have hnone : pad = 0 := by omega
      rw [Nat.mod_eq_of_lt (by omega), hnone]
      simp
    · change (SstFooter.zero.body ++ _).drop _ = SstFooter.zero.body
      rw [SstFooter.body_zero, ← List.replicate_add, List.drop_replicate]
      simp [SstFooter.body]

/-- A footer that fills a block of 26 bytes. -/
theorem readFooter_writeIndexFile_iff_full :
    readFooter 26 (List.replicate 26 7 ++ (⟨⟨0⟩, 2, [1], [9]⟩ : SstFooter).encode) =
      .ok ⟨⟨0⟩, 2, [1], [9]⟩ :=
  (readFooter_writeIndexFile_iff
    (show writeIndexFile 26 [List.replicate 26 7] ⟨⟨0⟩, 2, [1], [9]⟩ = .ok _ by decide)).mpr
    (.inl (by decide))

/-- In a block of 64 bytes the reader finds nothing but padding. -/
theorem readFooter_writeIndexFile_fails :
    ∃ file, writeIndexFile 64 [List.replicate 64 7] ⟨⟨0⟩, 2, [1], [9]⟩ = .ok file ∧
      readFooter 64 file = .error (.err (.io
        "decode footer: invalid values: footer key length mismatch")) :=
  ⟨_, rfl, by decide +kernel⟩

end Wal

end Todb
