import Todb.Verification.Sst.Finish
import Todb.Verification.Sst.Iterator

/-! # Files with one data block

Entries that fit one block give a file of a data block, the root and a trailer. Nothing is
assumed of the layout of the data block, so its offsets may have been cut to 32 bits. -/

namespace Todb

open Library LawfulSstWriter

/-! ## Building -/

section Building

variable {ω : Type} [SstWriter ω] {option : SstOption} {self self' : SstBuilder ω}
  {es : List (Bytes × Entry Bytes)}

/-- Entries that fit the open block together leave the written levels alone. -/
theorem addAll_fits {more : List (Bytes × Entry Bytes)}
    (hdata : self.dataBuilder.Fills option es)
    (hfits : blockFixedHeaderSize +
      ((es ++ more).map fun e => DataBlockBuilder.entrySize e.1 e.2).sum ≤ option.blockSize)
    (hadd : SstBuilder.addAll more self = .ok self') :
    self'.dataBuilder.Fills option (es ++ more) ∧ self'.writer = self.writer ∧
      self'.indexBuilders = self.indexBuilders ∧ self'.option = self.option := by
  induction more generalizing self es with
  | nil =>
      obtain rfl := Except.ok.inj hadd
      exact ⟨by simpa using hdata, rfl, rfl, rfl⟩
  | cons e more ih =>
      obtain ⟨key, entry⟩ := e
      obtain ⟨mid, hmid, hrest⟩ := bind_eq_ok.mp hadd
      have hroom : dataFull option es (key, entry) = false := by
        simp only [List.map_append, List.map_cons, List.sum_append, List.sum_cons] at hfits
        simp only [dataFull, decide_eq_false_iff_not, not_lt]
        omega
      rw [add_eq, DataBlockBuilder.wouldExceed_eq hdata, hroom] at hmid
      obtain ⟨dataBuilder, hput, hret⟩ := bind_eq_ok.mp (show
        (self.dataBuilder.add key entry >>= fun dataBuilder =>
          pure { self.recordKey key with dataBuilder }) = .ok mid from hmid)
      obtain rfl := Except.ok.inj hret
      rw [List.append_cons] at hfits ⊢
      have hfills : dataBuilder.Fills option (es ++ [(key, entry)]) := hdata.add (.inr hroom) hput
      obtain ⟨hfills', hwriter, hbuilders, hoption⟩ := @ih _ _ hfills hfits hrest
      exact ⟨hfills', hwriter, hbuilders, hoption⟩

theorem addToLevels_nil {writer : ω} {key : Bytes} {position : Position}
    {r : ω × List IndexBlockBuilder} (hadd : addToLevels option [] writer key position = .ok r) :
    ∃ builder, r = (writer, [builder]) ∧ builder.Fills option [key] ∧
      builder.children = [(key, position)] := by
  obtain ⟨builder, hbuilder, hret⟩ := bind_eq_ok.mp hadd
  obtain rfl := Except.ok.inj hret
  exact ⟨builder, rfl, IndexBlockBuilder.fills_first hbuilder⟩

variable [LawfulSstWriter ω]

/-- The first data block goes to the start of the file. -/
theorem flushDataBlock_first (hwrote : Wrote self.writer []) (hoption : self.option = option)
    (hbuilders : self.indexBuilders = []) (hdata : self.dataBuilder.Fills option es)
    (hne : es ≠ []) (hflush : self.flushDataBlock = .ok self') :
    ∃ key handle builder, es.getLast?.map Prod.fst = some key ∧ handle.offset.toNat = 0 ∧
      Wrote self'.writer self.dataBuilder.finish.1 ∧
      self'.indexBuilders = [builder] ∧ builder.Fills option [key] ∧
      builder.children = [(key, handle)] := by
  have hnonempty : self.dataBuilder.isEmpty = false := by
    rw [DataBlockBuilder.isEmpty, hdata.entries_eq, List.isEmpty_eq_false_iff]
    exact hne
  obtain ⟨last, hlast⟩ := Option.isSome_iff_exists.mp (List.getLast?_isSome.mpr hne)
  have hlastKey : self.dataBuilder.lastKey = some last.1 := by
    rw [DataBlockBuilder.lastKey, hdata.entries_eq, hlast]
    rfl
  rw [SstBuilder.flushDataBlock, hnonempty] at hflush
  simp only [Bool.false_eq_true, if_false, hlastKey, Option.getD_some] at hflush
  obtain ⟨⟨handle, writer₁⟩, hwrite, hadd⟩ := bind_eq_ok.mp hflush
  obtain ⟨hposition, hwrote₁, -⟩ := writeBlock_ok hwrote hwrite
  obtain ⟨writer', builders', hlevels, rfl⟩ := addIndexEntry_zero hadd
  simp only [hbuilders, hoption] at hlevels
  obtain ⟨builder, hr, hfills, hchildren⟩ := addToLevels_nil hlevels
  obtain ⟨rfl, rfl⟩ := Prod.mk.inj hr
  exact ⟨last.1, handle, builder, by simp [hlast], hposition, hwrote₁, rfl, hfills, hchildren⟩

/-- Flushing the only level writes the root and opens a level for it. -/
theorem flushLevels_single {file : Bytes} {builder : IndexBlockBuilder} {key : Bytes}
    (hwrote : Wrote self.writer file) (hbuilders : self.indexBuilders = [builder])
    (hfills : builder.Fills option [key])
    (hflush : SstBuilder.flushLevels (List.range self.indexBuilders.length) self = .ok self') :
    ∃ root top, root.offset.toNat = file.length ∧ Wrote self'.writer (file ++ builder.finish.1) ∧
      self'.indexBuilders = [IndexBlockBuilder.new option, top] ∧ top.children = [(key, root)] := by
  obtain ⟨hempty, last, hlast, rfl, -⟩ :=
    hfills.exists_last (show [key].getLast? = some key from rfl)
  rw [hbuilders] at hflush
  obtain ⟨builder', hindex, hrest⟩ := bind_eq_ok.mp hflush
  obtain rfl : builder = builder' := by simpa [hbuilders, index] using hindex
  rw [hempty] at hrest
  obtain ⟨mid, hmid, hret⟩ := bind_eq_ok.mp hrest
  obtain rfl := Except.ok.inj hret
  obtain ⟨⟨writer', builder', above⟩, hlevel, hret⟩ := bind_eq_ok.mp (show
    (flushLevel (fun writer => addToLevels self.option [] writer) self.writer builder [] >>=
      fun r => pure { self with writer := r.1, indexBuilders := [] ++ r.2.1 :: r.2.2 }) = .ok mid by
    simpa [SstBuilder.flushIndexBlock, hbuilders] using hmid)
  obtain rfl := Except.ok.inj hret
  rw [flushLevel, hempty] at hlevel
  obtain ⟨⟨root, writer₁⟩, hwrite, hadd⟩ := bind_eq_ok.mp hlevel
  obtain ⟨⟨writer₂, above'⟩, hlevels, hret⟩ := bind_eq_ok.mp hadd
  obtain ⟨rfl, rfl, rfl⟩ : writer₂ = writer' ∧ IndexBlockBuilder.new builder.option = builder' ∧
      above' = above := by
    simpa [pure, Except.pure] using hret
  obtain ⟨hposition, hwrote₁, -⟩ := writeBlock_ok hwrote hwrite
  obtain ⟨top, hr, -, hchildren⟩ := addToLevels_nil hlevels
  obtain ⟨rfl, rfl⟩ := Prod.mk.inj hr
  refine ⟨root, top, hposition, hwrote₁, ?_, ?_⟩
  · rw [← hfills.option_eq]
    rfl
  · rw [hchildren, hlast]
    rfl

/-- The file of entries that fit one block: the data block, the root and the trailer. -/
theorem buildSst_one_block {writer writer' : ω} {footer : SstFooter} (hwrote : Wrote writer [])
    (hne : es ≠ []) (hfits : blockFixedHeaderSize +
      (es.map fun e => DataBlockBuilder.entrySize e.1 e.2).sum ≤ option.blockSize)
    (hbuild : buildSst writer option es = .ok (footer, writer')) :
    ∃ (key : Bytes) (handle : Position) (builder : IndexBlockBuilder) (trailer : Bytes),
      es.getLast?.map Prod.fst = some key ∧ handle.offset.toNat = 0 ∧ builder.Fills option [key] ∧
      builder.children = [(key, handle)] ∧ footer.treeHeight = 2 ∧
      footer.rootIndexBlockPosition.offset.toNat = option.blockSize ∧
      Wrote writer' (finishBlock option.blockSize (es.map fun e => (e.1, encodeEntry e.2)) ++
        builder.finish.1 ++ trailer) := by
  obtain ⟨self, hadd, hfinish⟩ := bind_eq_ok.mp hbuild
  obtain ⟨self₁, hdata, hfinish⟩ := bind_eq_ok.mp hfinish
  obtain ⟨self₂, hlevels, hfinish⟩ := bind_eq_ok.mp hfinish
  obtain ⟨self₃, htop, hfinish⟩ := bind_eq_ok.mp hfinish
  obtain ⟨⟨position, writer₁⟩, hfooter, hret⟩ := bind_eq_ok.mp hfinish
  obtain ⟨rfl, rfl⟩ : self₃.footer = footer ∧ writer₁ = writer' := by
    simpa [pure, Except.pure] using hret
  obtain ⟨hfills, hw, hb, ho⟩ := addAll_fits (show (SstBuilder.new writer option).dataBuilder.Fills
    option [] from DataBlockBuilder.fills_new option) (by simpa using hfits) hadd
  rw [List.nil_append] at hfills
  have hblock : self.dataBuilder.finish.1 =
      finishBlock option.blockSize (es.map fun e => (e.1, encodeEntry e.2)) := by
    rw [DataBlockBuilder.finish, hfills.option_eq, hfills.entries_eq]
  obtain ⟨key, handle, builder, hkey, hhandle, hwrote₁, hbuilders, hindex, hchildren⟩ :=
    flushDataBlock_first (hw ▸ hwrote) ho hb hfills hne hdata
  obtain ⟨root, top, hroot, hwrote₂, hbuilders₂, htopChildren⟩ :=
    flushLevels_single hwrote₁ hbuilders hindex hlevels
  obtain ⟨entry, hentry, hchild⟩ : ∃ entry, top.entries = [entry] ∧ entry.child = root := by
    obtain ⟨option', entries, size⟩ := top
    obtain _ | ⟨entry, _ | ⟨_, _⟩⟩ := entries <;>
      simp_all [IndexBlockBuilder.children]
  have hlastTop : self₂.indexBuilders.getLast? = some top := by simp [hbuilders₂]
  rw [SstBuilder.flushTop, hlastTop] at htop
  obtain rfl : self₂ = self₃ := by
    simpa [IndexBlockBuilder.entryCount, hentry] using htop
  obtain ⟨trailer, -, hwrote₃⟩ := writeFooter_ok hwrote₂ hfooter
  refine ⟨key, handle, builder, trailer, hkey, hhandle, hindex, hchildren, ?_, ?_, hblock ▸ hwrote₃⟩
  · simp [SstBuilder.footer, hbuilders₂]
  · rw [hblock, length_finishBlock] at hroot
    simpa [SstBuilder.footer, hlastTop, IndexBlockBuilder.lastEntry, hentry, hchild] using hroot

end Building

/-! ## Reading -/

/-- A scan of a file with one data block starts with that block: it fails where placing a cursor
in the block does. -/
theorem seekToFirst_one_block {ρ : Type} [BlockReader ρ] {reader : ρ} {footer : SstFooter}
    {block root : Bytes} {key : Bytes} {handle : Position} {it : NormalBlockIter} {fault : Fault}
    (d : Direction) (fuel : ℕ) (hheight : footer.treeHeight = 2)
    (hroot : BlockReader.readBlock reader footer.rootIndexBlockPosition = .ok root)
    (hindex : IndexBlock root [(key, handle)])
    (hblock : BlockReader.readBlock reader handle = .ok block)
    (hnew : NormalBlockIter.new block = .ok it)
    (hfail : (Cursor.seekToFirst d (DataEntryDecodeIter.new it)).outcome = .error fault) :
    ((SstIter.new fuel reader footer).seekToFirst d).result = .error fault := by
  obtain ⟨it', ic, hnew', hseek, hat⟩ := hindex.load_first d
  have hfirst : d.first [(key, handle)].length = some 0 := by cases d <;> rfl
  rw [hfirst] at hat
  obtain ⟨bytes, hvalue, hposition⟩ := hat.value_eq (by simp)
  have hvalid : Cursor.valid ic = true := hat.valid_eq
  have hload : (IndexTreeIter.new reader footer).loadIndexBlock footer.rootIndexBlockPosition
      (Cursor.seekToFirst d) = .ok ic := by
    simp [IndexTreeIter.loadIndexBlock, IndexTreeIter.new, hroot, hnew', hseek, bind, Except.bind]
  have hinner : IndexTreeIter.innerSeekToFirst d (IndexTreeIter.new reader footer) =
      .ok ⟨reader, 2, footer.rootIndexBlockPosition, [ic], 0⟩ := by
    have htall : ¬ (IndexTreeIter.new reader footer).treeHeight ≤ 1 := by
      simp [IndexTreeIter.new, hheight]
    rw [IndexTreeIter.innerSeekToFirst, if_neg htall]
    change Ran.read ((IndexTreeIter.new reader footer).loadIndexBlock footer.rootIndexBlockPosition
      (Cursor.seekToFirst d)) _ _ = _
    rw [hload]
    simp [IndexTreeIter.seekEndLoop, IndexTreeIter.push, IndexTreeIter.new, IndexTreeIter.reset,
      IndexTreeIter.lastIndexLevel, hheight]
  set indexIter : IndexTreeIter ρ := ⟨reader, 2, footer.rootIndexBlockPosition, [ic], 0⟩
    with hiter
  have hvalidIndex : indexIter.valid = true := by
    simp [hiter, IndexTreeIter.valid, IndexTreeIter.current, hvalid]
  have hvalueIndex : indexIter.value = .ok (some handle) := by
    rw [IndexTreeIter.value, if_pos hvalidIndex]
    simp [hiter, IndexTreeIter.current, hvalue, hposition, bind, Except.bind, Functor.map,
      Except.map]
  set self := (SstIter.new fuel reader footer).withIndex indexIter with hself
  have hdata : self.loadDataBlock (Cursor.seekToFirst d) = .error fault := by
    simp [hself, SstIter.loadDataBlock, SstIter.withIndex, SstIter.new, hvalueIndex, hblock, hnew,
      hfail, bind, Except.bind]
  have hmoved : (IndexTreeIter.innerSeekToFirst d (SstIter.new fuel reader footer).indexIter).map
      (SstIter.new fuel reader footer).withIndex = .ok self := by
    rw [show (SstIter.new fuel reader footer).indexIter = IndexTreeIter.new reader footer from rfl,
      hinner, Ran.map_ok]
  rw [SstIter.seekToFirst, hmoved, Ran.bind_ok,
    if_pos (show self.indexIter.valid = true from hvalidIndex), hdata]
  rfl

/-- Scanning a file that was built from entries that fit one block. -/
theorem seekToFirst_buildSst_one_block {ω ρ : Type} [SstWriter ω] [LawfulSstWriter ω]
    [BlockReader ρ] {option : SstOption} {es : List (Bytes × Entry Bytes)} {writer writer' : ω}
    {footer : SstFooter} {reader : ρ} {it : NormalBlockIter} {fault : Fault} (d : Direction)
    (fuel : ℕ) (hwrote : Wrote writer []) (hne : es ≠ []) (hfits : blockFixedHeaderSize +
      (es.map fun e => DataBlockBuilder.entrySize e.1 e.2).sum ≤ option.blockSize)
    (hkeys : ∀ e ∈ es, blockFixedHeaderSize + IndexBlockBuilder.entrySize e.1 < 2 ^ 32)
    (hbuild : buildSst writer option es = .ok (footer, writer'))
    (hserves : ∀ file, Wrote writer' file → ServesBlocks reader file option.blockSize)
    (hnew : NormalBlockIter.new
      (finishBlock option.blockSize (es.map fun e => (e.1, encodeEntry e.2))) = .ok it)
    (hfail : (Cursor.seekToFirst d (DataEntryDecodeIter.new it)).outcome = .error fault) :
    ((SstIter.new fuel reader footer).seekToFirst d).result = .error fault := by
  obtain ⟨key, handle, builder, trailer, hkey, hhandle, hfills, hchildren, hheight, hroot, hwrote'⟩ :=
    buildSst_one_block hwrote hne hfits hbuild
  replace hserves := hserves _ hwrote'
  set block := finishBlock option.blockSize (es.map fun e => (e.1, encodeEntry e.2)) with hblock
  have hlength : block.length = option.blockSize := length_finishBlock _ _
  have hlength' : builder.finish.1.length = option.blockSize := by
    rw [IndexBlockBuilder.finish, length_finishBlock, hfills.option_eq]
  have hdata : blockAt block option.blockSize handle.offset.toNat = some block := by
    have hself := blockAt_append_self [] block
    rwa [hlength, List.nil_append, List.length_nil, ← hhandle] at hself
  have hindex : blockAt (block ++ builder.finish.1) option.blockSize
      footer.rootIndexBlockPosition.offset.toNat = some builder.finish.1 := by
    have hself := blockAt_append_self block builder.finish.1
    rw [hroot]
    rwa [hlength', hlength] at hself
  have hreadRoot := hserves _ _ (hroot ▸ dvd_rfl) (blockAt_append trailer hindex)
  have hreadData := hserves _ _ (hhandle ▸ dvd_zero _)
    (blockAt_append trailer (blockAt_append _ hdata))
  refine seekToFirst_one_block d fuel hheight hreadRoot (?_ : IndexBlock _ [(key, handle)])
    hreadData hnew hfail
  rw [← hchildren]
  refine hfills.indexBlock fun ks hks _ => ?_
  obtain ⟨e, he, rfl⟩ := Option.map_eq_some_iff.mp hkey
  have hsum := (hks.map IndexBlockBuilder.entrySize).sum_le_sum (fun _ _ => Nat.zero_le _)
  have hsmall := hkeys e (List.mem_of_getLast? he)
  simp only [List.map_cons, List.map_nil, List.sum_cons, List.sum_nil] at hsum
  omega

/-- A value that cannot be read fails the call that reaches it. -/
theorem DataEntryDecodeIter.move_error (dc : DataEntryDecodeIter NormalBlockIter)
    {call : Ran Fault NormalBlockIter} {input : NormalBlockIter} {fault : Fault}
    (hcall : call = .ok input) (hvalid : Cursor.valid input = true)
    (hvalue : Cursor.value input = .error fault) : (dc.move call).outcome = .error fault := by
  simp [DataEntryDecodeIter.move, DataEntryDecodeIter.refresh, hcall, hvalid, hvalue]

/-- A first value whose end, but not whose start, is past 2^32 cannot be cut out of the block. -/
theorem seekToFirst_cut {cells rest : List (Bytes × Bytes)} {key value : Bytes} (pad : Bytes)
    (hcells : cells = (key, value) :: rest) (hlen : cells.length < 2 ^ 32)
    (hstart : headerSize cells + keysLen cells < 2 ^ 32)
    (hstop : 2 ^ 32 ≤ headerSize cells + keysLen cells + value.length)
    (hvalue : value.length < 2 ^ 32) :
    ∃ it, NormalBlockIter.new (blockBody cells ++ pad) = .ok it ∧
      (Cursor.seekToFirst .forward (DataEntryDecodeIter.new it)).outcome = .error .panic := by
  refine ⟨_, new_blockBody_mod pad hlen, ?_⟩
  have hcell : NormalBlockIter.cell (blockBody cells ++ pad)
      ((valOffsets cells).map (· % 2 ^ 32)) 0 = .error .panic := by
    obtain ⟨tail, htail⟩ := offsetsFrom_eq_cons (headerSize cells + keysLen cells + value.length)
      (rest.map fun cell => cell.2.length)
    have hoffsets : valOffsets cells = (headerSize cells + keysLen cells) ::
        (headerSize cells + keysLen cells + value.length) :: tail := by
      rw [← htail, valOffsets]
      conv_lhs => rw [hcells, List.map_cons, offsetsFrom, ← hcells]
    rw [hoffsets]
    simp only [NormalBlockIter.cell, List.map_cons, index, List.getElem?_cons_zero,
      List.getElem?_cons_succ, bind, Except.bind, slice]
    rw [if_neg]
    omega
  have hpositive : 0 < cells.length := by simp [hcells]
  have hseek : NormalBlockIter.seekToFirst .forward ⟨blockBody cells ++ pad,
      (keyOffsets cells).map (· % 2 ^ 32), (valOffsets cells).map (· % 2 ^ 32), cells.length, none⟩ =
      .ok ⟨blockBody cells ++ pad, (keyOffsets cells).map (· % 2 ^ 32),
        (valOffsets cells).map (· % 2 ^ 32), cells.length, some 0⟩ := by
    rw [NormalBlockIter.seekToFirst, if_pos hpositive, NormalBlockIter.withCurr]
  refine DataEntryDecodeIter.move_error _ hseek rfl ?_
  change (some <$> NormalBlockIter.cell (blockBody cells ++ pad)
    ((valOffsets cells).map (· % 2 ^ 32)) 0 : Outcome (Option Bytes)) = _
  rw [hcell]
  rfl

end Todb
