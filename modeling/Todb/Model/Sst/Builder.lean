import Todb.Model.Sst.BlockIter
import Todb.Model.Sst.Footer

/-! # Building SST files

Block builders collect entries up to a block size; `SstBuilder` writes data blocks and
grows the index levels above them while entries arrive. -/

namespace Todb

open Library

structure SstOption where
  blockSize : ℕ
deriving DecidableEq

/-! ## Block layout -/

/-- The count and the two sentinels of an empty block. -/
def blockFixedHeaderSize : ℕ := 12

/-- The running offsets of pieces with the given lengths, with a trailing sentinel. -/
def offsetsFrom : ℕ → List ℕ → List ℕ
  | start, [] => [start]
  | start, n :: ns => start :: offsetsFrom (start + n) ns

/-- `BytesMut::resize(len, 0)`. -/
def resize (bytes : Bytes) (len : ℕ) : Bytes :=
  (bytes ++ List.replicate (len - bytes.length) 0).take len

def headerSize (cells : List (Bytes × Bytes)) : ℕ := 4 + (cells.length + 1) * 8

def keysLen (cells : List (Bytes × Bytes)) : ℕ := (cells.map fun cell => cell.1.length).sum

def keyOffsets (cells : List (Bytes × Bytes)) : List ℕ :=
  offsetsFrom (headerSize cells) (cells.map fun cell => cell.1.length)

/-- The value offsets go on where the keys end. -/
def valOffsets (cells : List (Bytes × Bytes)) : List ℕ :=
  offsetsFrom (headerSize cells + keysLen cells) (cells.map fun cell => cell.2.length)

/-- The layout both builders write: count, key offsets, value offsets, keys, values.
Counts and offsets are truncated to 32 bits. -/
def blockBody (cells : List (Bytes × Bytes)) : Bytes :=
  beBytes 4 cells.length ++ (keyOffsets cells).flatMap (beBytes 4) ++
    (valOffsets cells).flatMap (beBytes 4) ++
    (cells.map Prod.fst).flatten ++ (cells.map Prod.snd).flatten

/-- The layout, zero-padded to the block size. -/
def finishBlock (blockSize : ℕ) (cells : List (Bytes × Bytes)) : Bytes :=
  resize (blockBody cells) blockSize

/-! ## `DataBlockBuilder` -/

structure DataBlockBuilder where
  option : SstOption
  entries : List (Bytes × Entry Bytes)
  estimatedSize : ℕ
deriving DecidableEq

def dataEntryHeaderLen : ℕ := 2

def perEntryOffsetTableBytes : ℕ := 8

/-- The stored value of an entry: version, kind, payload. -/
def encodeEntry : Entry Bytes → Bytes
  | .put value => dataEntryVersion :: 0 :: value
  | .delete => [dataEntryVersion, 1]

namespace DataBlockBuilder

def new (option : SstOption) : DataBlockBuilder := ⟨option, [], 0⟩

/-- The payload length of an entry; a tombstone has none. -/
def valueLen : Entry Bytes → ℕ
  | .put value => value.length
  | .delete => 0

def entrySize (key : Bytes) (entry : Entry Bytes) : ℕ :=
  key.length + valueLen entry + perEntryOffsetTableBytes + dataEntryHeaderLen

/-- `add` and `add_delete`: an entry that cannot fit any block fails the assertion. -/
def add (self : DataBlockBuilder) (key : Bytes) (entry : Entry Bytes) :
    Outcome DataBlockBuilder :=
  if blockFixedHeaderSize + entrySize key entry < self.option.blockSize then
    .ok { self with
      entries := self.entries ++ [(key, entry)]
      estimatedSize := self.estimatedSize + entrySize key entry }
  else .error .panic

def wouldExceed (self : DataBlockBuilder) (key : Bytes) (entry : Entry Bytes) : Bool :=
  decide (self.option.blockSize <
    blockFixedHeaderSize + self.estimatedSize + entrySize key entry)

def isEmpty (self : DataBlockBuilder) : Bool := self.entries.isEmpty

def lastKey (self : DataBlockBuilder) : Option Bytes := self.entries.getLast?.map Prod.fst

def finish (self : DataBlockBuilder) : Bytes × DataBlockBuilder :=
  (finishBlock self.option.blockSize (self.entries.map fun e => (e.1, encodeEntry e.2)),
    new self.option)

end DataBlockBuilder

/-! ## `IndexBlockBuilder` -/

structure IndexEntry where
  endKey : Bytes
  child : Position
deriving DecidableEq

structure IndexBlockBuilder where
  option : SstOption
  entries : List IndexEntry
  estimatedSize : ℕ
deriving DecidableEq

/-- The stored value of an index entry: version and child offset. -/
def encodeChild (child : Position) : Bytes :=
  indexValueVersion :: beBytes 8 child.offset.toNat

namespace IndexBlockBuilder

def new (option : SstOption) : IndexBlockBuilder := ⟨option, [], 0⟩

def entrySize (endKey : Bytes) : ℕ := endKey.length + 17

def add (self : IndexBlockBuilder) (endKey : Bytes) (child : Position) :
    Outcome IndexBlockBuilder :=
  if blockFixedHeaderSize + entrySize endKey < self.option.blockSize then
    .ok { self with
      entries := self.entries ++ [⟨endKey, child⟩]
      estimatedSize := self.estimatedSize + entrySize endKey }
  else .error .panic

def wouldExceed (self : IndexBlockBuilder) (endKey : Bytes) : Bool :=
  decide (self.option.blockSize <
    blockFixedHeaderSize + self.estimatedSize + entrySize endKey)

def isEmpty (self : IndexBlockBuilder) : Bool := self.entries.isEmpty

def entryCount (self : IndexBlockBuilder) : ℕ := self.entries.length

def lastEntry (self : IndexBlockBuilder) : Option IndexEntry := self.entries.getLast?

def finish (self : IndexBlockBuilder) : Bytes × IndexBlockBuilder :=
  (finishBlock self.option.blockSize (self.entries.map fun e => (e.endKey, encodeChild e.child)),
    new self.option)

end IndexBlockBuilder

/-! ## Writers -/

/-- SST file format writer. -/
class SstWriter (ω : Type) where
  writeBlock : ω → Bytes → Outcome (Position × ω)
  writeFooter : ω → SstFooter → Outcome (Position × ω)

structure DefaultSstWriter (ω : Type) where
  inner : ω
  option : SstOption

/-- A block of the wrong size fails the writer's assertion; the footer is not checked. -/
instance {ω : Type} [BlockWriter ω] : SstWriter (DefaultSstWriter ω) where
  writeBlock self data :=
    if data.length = self.option.blockSize then do
      let (position, inner) ← BlockWriter.writeBlock self.inner data
      return (position, { self with inner })
    else .error .panic
  writeFooter self footer := do
    let (position, inner) ← BlockWriter.writeBlock self.inner footer.encode
    return (position, { self with inner })

/-! ## `SstBuilder` -/

structure SstBuilder (ω : Type) where
  writer : ω
  dataBuilder : DataBlockBuilder
  indexBuilders : List IndexBlockBuilder
  option : SstOption
  firstKey : Option Bytes
  lastKey : Option Bytes

section IndexLevels

variable {ω : Type} [SstWriter ω]

/-- `flush_index_block` on the builder of one level; `add` is `add_index_entry` on the
level above. -/
def flushLevel (add : ω → Bytes → Position → Outcome (ω × List IndexBlockBuilder))
    (writer : ω) (builder : IndexBlockBuilder) (above : List IndexBlockBuilder) :
    Outcome (ω × IndexBlockBuilder × List IndexBlockBuilder) :=
  if builder.isEmpty then .ok (writer, builder, above)
  else do
    let endKey := (builder.lastEntry.map IndexEntry.endKey).getD []
    let (block, builder) := builder.finish
    let (handle, writer) ← SstWriter.writeBlock writer block
    let (writer, above) ← add writer endKey handle
    return (writer, builder, above)

/-- `add_index_entry` at the first of the given levels. With no level left a new builder
is pushed, and flushing it would do nothing since it is empty. -/
def addToLevels (option : SstOption) : List IndexBlockBuilder → ω → Bytes → Position →
    Outcome (ω × List IndexBlockBuilder)
  | [], writer, endKey, position => do
      let builder ← (IndexBlockBuilder.new option).add endKey position
      return (writer, [builder])
  | builder :: above, writer, endKey, position => do
      let (writer, builder, above) ←
        if builder.wouldExceed endKey then
          flushLevel (fun writer => addToLevels option above writer) writer builder above
        else .ok (writer, builder, above)
      let builder ← builder.add endKey position
      return (writer, builder :: above)

end IndexLevels

namespace SstBuilder

variable {ω : Type} [SstWriter ω]

def new (writer : ω) (option : SstOption) : SstBuilder ω :=
  ⟨writer, .new option, [], option, none, none⟩

def addIndexEntry (self : SstBuilder ω) (level : ℕ) (endKey : Bytes) (position : Position) :
    Outcome (SstBuilder ω) := do
  let (writer, above) ←
    addToLevels self.option (self.indexBuilders.drop level) self.writer endKey position
  return { self with writer, indexBuilders := self.indexBuilders.take level ++ above }

def flushIndexBlock (self : SstBuilder ω) (level : ℕ) : Outcome (SstBuilder ω) :=
  match self.indexBuilders.drop level with
  | [] => .error .panic
  | builder :: above => do
      let (writer, builder, above) ←
        flushLevel (fun writer => addToLevels self.option above writer) self.writer builder above
      return { self with
        writer, indexBuilders := self.indexBuilders.take level ++ builder :: above }

def flushDataBlock (self : SstBuilder ω) : Outcome (SstBuilder ω) :=
  if self.dataBuilder.isEmpty then .ok self
  else do
    let endKey := self.dataBuilder.lastKey.getD []
    let (block, dataBuilder) := self.dataBuilder.finish
    let (handle, writer) ← SstWriter.writeBlock self.writer block
    addIndexEntry { self with writer, dataBuilder } 0 endKey handle

/-- The first and the last key added. -/
def recordKey (self : SstBuilder ω) (key : Bytes) : SstBuilder ω :=
  { self with firstKey := self.firstKey.or (some key), lastKey := some key }

/-- `add` for a `Put` value and `add_delete` for a tombstone. -/
def add (self : SstBuilder ω) (key : Bytes) (entry : Entry Bytes) : Outcome (SstBuilder ω) := do
  let self := self.recordKey key
  let self ← if self.dataBuilder.wouldExceed key entry then self.flushDataBlock else .ok self
  let dataBuilder ← self.dataBuilder.add key entry
  return { self with dataBuilder }

/-- The loop of `finish` over the levels that existed when it started. -/
def flushLevels : List ℕ → SstBuilder ω → Outcome (SstBuilder ω)
  | [], self => .ok self
  | level :: levels, self => do
      let builder ← index self.indexBuilders level
      let self ← if builder.isEmpty then .ok self else self.flushIndexBlock level
      flushLevels levels self

/-- The level above may have been created by the loop itself and hold several blocks. -/
def flushTop (self : SstBuilder ω) : Outcome (SstBuilder ω) :=
  match self.indexBuilders.getLast? with
  | none => .ok self
  | some top =>
      if 1 < top.entryCount then self.flushIndexBlock (self.indexBuilders.length - 1)
      else .ok self

def footer (self : SstBuilder ω) : SstFooter where
  rootIndexBlockPosition :=
    ((self.indexBuilders.getLast?.bind IndexBlockBuilder.lastEntry).map IndexEntry.child).getD ⟨0⟩
  treeHeight := UInt32.ofNat self.indexBuilders.length
  firstKey := self.firstKey.getD []
  lastKey := self.lastKey.getD []

def finish (self : SstBuilder ω) : Outcome (SstFooter × ω) := do
  let self ← self.flushDataBlock
  let self ← flushLevels (List.range self.indexBuilders.length) self
  let self ← self.flushTop
  let (_, writer) ← SstWriter.writeFooter self.writer self.footer
  return (self.footer, writer)

/-- Adding a sequence of entries. -/
def addAll : List (Bytes × Entry Bytes) → SstBuilder ω → Outcome (SstBuilder ω)
  | [], self => .ok self
  | (key, entry) :: entries, self => do addAll entries (← self.add key entry)

end SstBuilder

/-- Building a whole file: every entry is added to a new builder, then `finish`. -/
def buildSst {ω : Type} [SstWriter ω] (writer : ω) (option : SstOption)
    (entries : List (Bytes × Entry Bytes)) : Outcome (SstFooter × ω) := do
  (← SstBuilder.addAll entries (SstBuilder.new writer option)).finish

end Todb
