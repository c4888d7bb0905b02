import Todb.Model.Sst.Builder

/-! # Builders over two writers

A builder reads nothing of its writer but the positions it returns. Two writers that write alike
therefore take the same blocks from it, and end as alike as they began. -/

namespace Todb

open Library

variable {ω ω' : Type} [SstWriter ω] [SstWriter ω']

/-- The map sends a writer to one that writes alike. -/
structure WritesAlike (f : ω → ω') : Prop where
  writeBlock : ∀ writer data, SstWriter.writeBlock (f writer) data =
    (SstWriter.writeBlock writer data).map (Prod.map id f)
  writeFooter : ∀ writer footer, SstWriter.writeFooter (f writer) footer =
    (SstWriter.writeFooter writer footer).map (Prod.map id f)

def SstBuilder.mapWriter (f : ω → ω') (builder : SstBuilder ω) : SstBuilder ω' :=
  { builder with writer := f builder.writer }

variable {f : ω → ω'} (hf : WritesAlike f)
include hf

theorem flushLevel_map {add : ω → Bytes → Position → Outcome (ω × List IndexBlockBuilder)}
    {add' : ω' → Bytes → Position → Outcome (ω' × List IndexBlockBuilder)}
    (hadd : ∀ writer endKey position,
      add' (f writer) endKey position = (add writer endKey position).map (Prod.map f id))
    (writer : ω) (builder : IndexBlockBuilder) (above : List IndexBlockBuilder) :
    flushLevel add' (f writer) builder above =
      (flushLevel add writer builder above).map (Prod.map f id) := by
  by_cases hempty : builder.isEmpty
  · simp only [flushLevel, hempty, ite_true]
    rfl
  · simp only [flushLevel, hempty, Bool.false_eq_true, ite_false, hf.writeBlock]
    cases SstWriter.writeBlock writer builder.finish.1 with
    | error fault => rfl
    | ok wrote =>
        simp only [Except.map, bind, Except.bind, Prod.map, hadd, id]
        cases add wrote.2 ((builder.lastEntry.map IndexEntry.endKey).getD []) wrote.1 <;> rfl

theorem addToLevels_map (option : SstOption) (levels : List IndexBlockBuilder) (writer : ω)
    (endKey : Bytes) (position : Position) :
    addToLevels option levels (f writer) endKey position =
      (addToLevels option levels writer endKey position).map (Prod.map f id) := by
  induction levels generalizing writer endKey position with
  | nil =>
      simp only [addToLevels]
      cases (IndexBlockBuilder.new option).add endKey position <;> rfl
  | cons builder above ih =>
      simp only [addToLevels]
      split
      · rw [flushLevel_map hf ih]
        cases flushLevel (fun writer => addToLevels option above writer) writer builder above with
        | error fault => rfl
        | ok flushed =>
            simp only [Except.map, bind, Except.bind, Prod.map, id]
            cases flushed.2.1.add endKey position <;> rfl
      · simp only [bind, Except.bind]
        cases builder.add endKey position <;> rfl

namespace SstBuilder

theorem addIndexEntry_map (builder : SstBuilder ω) (level : ℕ) (endKey : Bytes)
    (position : Position) : (builder.mapWriter f).addIndexEntry level endKey position =
      (builder.addIndexEntry level endKey position).map (mapWriter f) := by
  simp only [addIndexEntry, mapWriter]
  rw [addToLevels_map hf]
  cases addToLevels builder.option (builder.indexBuilders.drop level) builder.writer endKey
    position <;> rfl

theorem flushIndexBlock_map (builder : SstBuilder ω) (level : ℕ) :
    (builder.mapWriter f).flushIndexBlock level =
      (builder.flushIndexBlock level).map (mapWriter f) := by
  simp only [flushIndexBlock, mapWriter]
  cases builder.indexBuilders.drop level with
  | nil => rfl
  | cons lowest above =>
      simp only
      rw [flushLevel_map hf (addToLevels_map hf builder.option above)]
      cases flushLevel (fun writer => addToLevels builder.option above writer) builder.writer lowest
        above <;> rfl

theorem flushDataBlock_map (builder : SstBuilder ω) :
    (builder.mapWriter f).flushDataBlock = builder.flushDataBlock.map (mapWriter f) := by
  have hdata : (builder.mapWriter f).dataBuilder = builder.dataBuilder := rfl
  by_cases hempty : builder.dataBuilder.isEmpty
  · simp only [flushDataBlock, hdata, hempty, ite_true]
    rfl
  · simp only [flushDataBlock, hdata, hempty, Bool.false_eq_true, ite_false]
    simp only [mapWriter, hf.writeBlock]
    cases SstWriter.writeBlock builder.writer builder.dataBuilder.finish.1 with
    | error fault => rfl
    | ok wrote =>
        let next : SstBuilder ω :=
          { builder with writer := wrote.2, dataBuilder := builder.dataBuilder.finish.2 }
        exact addIndexEntry_map hf next 0 (builder.dataBuilder.lastKey.getD []) wrote.1

theorem add_map (builder : SstBuilder ω) (key : Bytes) (entry : Entry Bytes) :
    (builder.mapWriter f).add key entry = (builder.add key entry).map (mapWriter f) := by
  have hrecord : (builder.mapWriter f).recordKey key = (builder.recordKey key).mapWriter f := rfl
  simp only [add, hrecord]
  have hdata : ((builder.recordKey key).mapWriter f).dataBuilder =
      (builder.recordKey key).dataBuilder := rfl
  rw [hdata]
  split
  · rw [flushDataBlock_map hf]
    cases (builder.recordKey key).flushDataBlock with
    | error fault => rfl
    | ok flushed =>
        simp only [Except.map, bind, Except.bind, mapWriter]
        cases flushed.dataBuilder.add key entry <;> rfl
  · simp only [bind, Except.bind, hdata]
    cases (builder.recordKey key).dataBuilder.add key entry <;> rfl

theorem flushLevels_map (levels : List ℕ) (builder : SstBuilder ω) :
    flushLevels levels (builder.mapWriter f) = (flushLevels levels builder).map (mapWriter f) := by
  induction levels generalizing builder with
  | nil => rfl
  | cons level levels ih =>
      have hlevels : (builder.mapWriter f).indexBuilders = builder.indexBuilders := rfl
      simp only [flushLevels, hlevels]
      cases index builder.indexBuilders level with
      | error fault => rfl
      | ok lowest =>
          simp only [bind, Except.bind]
          split
          · exact ih builder
          · rw [flushIndexBlock_map hf]
            cases builder.flushIndexBlock level with
            | error fault => rfl
            | ok flushed => exact ih flushed

theorem flushTop_map (builder : SstBuilder ω) :
    (builder.mapWriter f).flushTop = builder.flushTop.map (mapWriter f) := by
  have hlevels : (builder.mapWriter f).indexBuilders = builder.indexBuilders := rfl
  simp only [flushTop, hlevels]
  split
  · rfl
  · split
    · exact flushIndexBlock_map hf builder _
    · rfl

theorem finish_map (builder : SstBuilder ω) :
    (builder.mapWriter f).finish = builder.finish.map (Prod.map id f) := by
  simp only [finish, bind, Except.bind]
  rw [flushDataBlock_map hf]
  cases builder.flushDataBlock with
  | error fault => rfl
  | ok flushed =>
      simp only [Except.map]
      have hlevels : (flushed.mapWriter f).indexBuilders = flushed.indexBuilders := rfl
      rw [hlevels, flushLevels_map hf]
      cases flushLevels (List.range flushed.indexBuilders.length) flushed with
      | error fault => rfl
      | ok levelled =>
          simp only [Except.map]
          rw [flushTop_map hf]
          cases levelled.flushTop with
          | error fault => rfl
          | ok topped =>
              have hfooter : (topped.mapWriter f).footer = topped.footer := rfl
              simp only [Except.map, hfooter]
              simp only [mapWriter]
              rw [hf.writeFooter]
              cases SstWriter.writeFooter topped.writer topped.footer <;> rfl

end SstBuilder

end Todb
