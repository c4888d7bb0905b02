import Todb.Model.Sst.BlockIter
import Todb.Model.Sst.Footer

/-! # Iterators over an SST file

`IndexTreeIter` keeps one cursor per index level, root first; `SstIter` adds the
cursor of the data block the leaf index level points at. -/

namespace Todb

open Library

abbrev IndexBlockCursor := IndexEntryDecodeIter NormalBlockIter

/-- `currIterIdx` is a field of its own: it is not derived from `indexIters`. -/
structure IndexTreeIter (ρ : Type) where
  reader : ρ
  treeHeight : ℕ
  rootPosition : Position
  indexIters : List IndexBlockCursor
  currIterIdx : ℕ

namespace IndexTreeIter

variable {ρ : Type} [BlockReader ρ]

def new (reader : ρ) (footer : SstFooter) : IndexTreeIter ρ :=
  ⟨reader, footer.treeHeight.toNat, footer.rootIndexBlockPosition, [], 0⟩

/-- Clears the level stack and nothing else. -/
def reset (self : IndexTreeIter ρ) : IndexTreeIter ρ := { self with indexIters := [] }

def lastIndexLevel (self : IndexTreeIter ρ) : ℕ := self.treeHeight - 2

/-- Reads the index block at `position` and places a fresh cursor in it. -/
def loadIndexBlock (self : IndexTreeIter ρ) (position : Position)
    (place : IndexBlockCursor → Ran Fault IndexBlockCursor) : Outcome IndexBlockCursor := do
  let block ← BlockReader.readBlock self.reader position
  let iter ← NormalBlockIter.new block
  (place (IndexEntryDecodeIter.new iter)).outcome

/-- The child position under a level's cursor. -/
def childPosition (iter : IndexBlockCursor) : Outcome Position := do
  match ← Cursor.value iter with
  | none => throw (.err (.invalidValue "iter values not exists"))
  | some value => Position.ofBytes value

/-- `index_iters.push(child)`. -/
def push (self : IndexTreeIter ρ) (child : IndexBlockCursor) : IndexTreeIter ρ :=
  { self with indexIters := self.indexIters ++ [child] }

/-- `index_iters.push(child); curr_iter_idx += 1`. -/
def pushLevel (self : IndexTreeIter ρ) (child : IndexBlockCursor) : IndexTreeIter ρ :=
  { self with indexIters := self.indexIters ++ [child], currIterIdx := self.currIterIdx + 1 }

/-! ## Descending from the root -/

def emptyChild (level : ℕ) : Fault :=
  .err (.invalidValue
    s!"corrupt index: empty child block at level {level} under a positioned parent")

/-- The `while curr_iter_idx < last_index_level` loop of `locate`. -/
def locateLoop (target : Bytes) : ℕ → IndexTreeIter ρ → Ran Fault (IndexTreeIter ρ)
  | 0, self => .ok self
  | n + 1, self =>
      if self.currIterIdx < self.lastIndexLevel then
        Ran.read (index self.indexIters self.currIterIdx) self fun iter =>
          if !Cursor.valid iter then
            if self.currIterIdx = 0 then .ok self
            else .fail (emptyChild self.currIterIdx) self
          else
            Ran.read (childPosition iter) self fun position =>
              Ran.read (self.loadIndexBlock position
                  (IndexEntryDecodeIter.seekLowerBound target)) self fun child =>
                locateLoop target n (self.pushLevel child)
      else .ok self

/-- Positions each level at its first end key `≥ target`. -/
def locate (self : IndexTreeIter ρ) (target : Bytes) : Ran Fault (IndexTreeIter ρ) :=
  if self.treeHeight ≤ 1 then .ok self
  else
    let self := self.reset
    Ran.read (self.loadIndexBlock self.rootPosition
        (IndexEntryDecodeIter.seekLowerBound target)) self fun root =>
      locateLoop target (self.lastIndexLevel - self.currIterIdx) (self.push root)

def emptyDescent : Fault :=
  .err (.invalidValue "corrupt index: empty block during seek_to_first/last descent")

/-- The loop shared by `inner_seek_to_first` and `inner_seek_to_last`. -/
def seekEndLoop (d : Direction) : ℕ → IndexTreeIter ρ → Ran Fault (IndexTreeIter ρ)
  | 0, self => .ok self
  | n + 1, self =>
      if self.currIterIdx < self.lastIndexLevel then
        Ran.read (index self.indexIters self.currIterIdx) self fun iter =>
          if !Cursor.valid iter then .fail emptyDescent self
          else
            Ran.read (childPosition iter) self fun position =>
              Ran.read (self.loadIndexBlock position (Cursor.seekToFirst d)) self fun child =>
                seekEndLoop d n (self.pushLevel child)
      else .ok self

/-- `inner_seek_to_first` (forward) and `inner_seek_to_last` (reverse). -/
def innerSeekToFirst (d : Direction) (self : IndexTreeIter ρ) : Ran Fault (IndexTreeIter ρ) :=
  if self.treeHeight ≤ 1 then .ok self
  else
    let self := self.reset
    Ran.read (self.loadIndexBlock self.rootPosition (Cursor.seekToFirst d)) self fun root =>
      seekEndLoop d (self.lastIndexLevel - self.currIterIdx) (self.push root)

/-! ## Stepping -/

def current (self : IndexTreeIter ρ) : Option IndexBlockCursor :=
  self.indexIters[self.currIterIdx]?

def valid (self : IndexTreeIter ρ) : Bool :=
  match self.current with
  | some iter => Cursor.valid iter
  | none => false

/-- Advances level `curr`, the current one, and pops it when it is exhausted. -/
def stepLevel (d : Direction) (curr : ℕ) (self : IndexTreeIter ρ)
    (exhausted : IndexTreeIter ρ → Ran Fault (Bool × IndexTreeIter ρ)) :
    Ran Fault (Bool × IndexTreeIter ρ) :=
  Ran.read (index self.indexIters curr) (true, self) fun iter =>
    ((Cursor.next d iter).map fun iter =>
        (true, { self with indexIters := self.indexIters.set curr iter })).bind fun stepped =>
      if stepped.2.valid then .ok stepped
      else exhausted { stepped.2 with indexIters := stepped.2.indexIters.eraseIdx curr }

/-- Phase 1: advance the current level, popping exhausted levels on the way up. The flag
says whether some level still has an entry. -/
def climb (d : Direction) : ℕ → IndexTreeIter ρ → Ran Fault (Bool × IndexTreeIter ρ)
  | 0, self => stepLevel d 0 self fun self => .ok (false, self)
  | parent + 1, self => stepLevel d (parent + 1) self fun self =>
      climb d parent { self with currIterIdx := parent }

def emptyStep (d : Direction) : Fault :=
  match d with
  | .forward => .err (.invalidValue "corrupt index: empty block during next descent")
  | .reverse => .err (.invalidValue "corrupt index: empty block during prev descent")

/-- Phase 2: re-descend to the leaf level through first (last) entries. -/
def redescend (d : Direction) : ℕ → IndexTreeIter ρ → Ran Fault (IndexTreeIter ρ)
  | 0, self => .ok self
  | n + 1, self =>
      if self.currIterIdx < self.lastIndexLevel then
        Ran.read (index self.indexIters self.currIterIdx) self fun iter =>
          Ran.read (childPosition iter) self fun position =>
            Ran.read (self.loadIndexBlock position (Cursor.seekToFirst d)) self fun child =>
              if !Cursor.valid child then .fail (emptyStep d) self
              else redescend d n (self.pushLevel child)
      else .ok self

/-- `inner_next` (forward) and `inner_prev` (reverse). The level of the leaf index is
computed first, so a tree without index levels underflows. -/
def innerNext (d : Direction) (self : IndexTreeIter ρ) : Ran Fault (IndexTreeIter ρ) :=
  if self.treeHeight < 2 then .fail .panic self
  else if self.indexIters.isEmpty then .ok self
  else
    (climb d self.currIterIdx self).chain Prod.snd fun climbed =>
      if climbed.1 then redescend d (self.lastIndexLevel - climbed.2.currIterIdx) climbed.2
      else .ok climbed.2

/-! ## The iterator interface -/

/-- The position of the data block under the cursor. -/
def value (self : IndexTreeIter ρ) : Outcome (Option Position) :=
  if self.valid then
    match self.current with
    | some iter => do
        match ← Cursor.value iter with
        | some bytes => some <$> Position.ofBytes bytes
        | none => return none
    | none => .ok none
  else .ok none

/-- Reverse seek falls back to the last entry when every end key is below the target. -/
def seek (d : Direction) (self : IndexTreeIter ρ) (target : Bytes) :
    Ran Fault (IndexTreeIter ρ) :=
  match d with
  | .forward => self.locate target
  | .reverse => (self.locate target).bind fun self =>
      if !self.valid then innerSeekToFirst .reverse self else .ok self

end IndexTreeIter

abbrev DataBlockCursor := DataEntryDecodeIter NormalBlockIter

/-- `fuel` bounds the gap-skipping loop of reverse `seek`. -/
structure SstIter (fuel : ℕ) (ρ : Type) where
  reader : ρ
  indexIter : IndexTreeIter ρ
  dataIter : Option DataBlockCursor

namespace SstIter

variable {fuel : ℕ} {ρ : Type} [BlockReader ρ]

def new (fuel : ℕ) (reader : ρ) (footer : SstFooter) : SstIter fuel ρ :=
  ⟨reader, IndexTreeIter.new reader footer, none⟩

def withIndex (self : SstIter fuel ρ) (indexIter : IndexTreeIter ρ) : SstIter fuel ρ :=
  { self with indexIter }

/-- Loads the data block under the index cursor and places a fresh cursor in it. -/
def loadDataBlock (self : SstIter fuel ρ)
    (place : DataBlockCursor → Ran Fault DataBlockCursor) : Outcome DataBlockCursor := do
  match ← self.indexIter.value with
  | none => throw (.err (.invalidValue "index iter valid but value is none"))
  | some position =>
      let block ← BlockReader.readBlock self.reader position
      let iter ← NormalBlockIter.new block
      (place (DataEntryDecodeIter.new iter)).outcome

def withData (self : SstIter fuel ρ) (dataIter : DataBlockCursor) : SstIter fuel ρ :=
  { self with dataIter := some dataIter }

/-- An index cursor that comes up invalid leaves the old data block in place. -/
def seekToFirst (d : Direction) (self : SstIter fuel ρ) : Ran Fault (SstIter fuel ρ) :=
  ((IndexTreeIter.innerSeekToFirst d self.indexIter).map self.withIndex).bind fun self =>
    if self.indexIter.valid then
      Ran.read (self.loadDataBlock (Cursor.seekToFirst d)) self fun data =>
        .ok (self.withData data)
    else .ok self

/-- The gap loop of reverse `seek`: step back over blocks whose keys all exceed `target`. -/
def reverseSeekLoop (target : Bytes) : ℕ → SstIter fuel ρ → Ran Fault (SstIter fuel ρ)
  | 0, self => .fail .outOfFuel self
  | n + 1, self =>
      if !self.indexIter.valid then .ok { self with dataIter := none }
      else
        Ran.read (self.loadDataBlock (Cursor.seek .reverse · target)) self fun data =>
          if Cursor.valid data then .ok (self.withData data)
          else ((IndexTreeIter.innerNext .reverse self.indexIter).map self.withIndex).bind
            (reverseSeekLoop target n)

def seek (d : Direction) (self : SstIter fuel ρ) (target : Bytes) :
    Ran Fault (SstIter fuel ρ) :=
  ((IndexTreeIter.seek d self.indexIter target).map self.withIndex).bind fun self =>
    match d with
    | .forward =>
        if self.indexIter.valid then
          Ran.read (self.loadDataBlock (Cursor.seek .forward · target)) self fun data =>
            .ok (self.withData data)
        else .ok { self with dataIter := none }
    | .reverse => reverseSeekLoop target fuel self

def next (d : Direction) (self : SstIter fuel ρ) : Ran Fault (SstIter fuel ρ) :=
  match self.dataIter with
  | none => .ok self
  | some data =>
      ((Cursor.next d data).map self.withData).bind fun self =>
        if self.dataIter.any Cursor.valid then .ok self
        else
          ((IndexTreeIter.innerNext d self.indexIter).map self.withIndex).bind fun self =>
            if !self.indexIter.valid then .ok self
            else
              Ran.read (self.loadDataBlock (Cursor.seekToFirst d)) self fun data =>
                .ok (self.withData data)

def valid (self : SstIter fuel ρ) : Bool := self.dataIter.any Cursor.valid

def key (self : SstIter fuel ρ) : Outcome (Option Bytes) :=
  match self.dataIter with
  | some data => Cursor.key data
  | none => .ok none

def value (self : SstIter fuel ρ) : Outcome (Option (Entry Bytes)) :=
  match self.dataIter with
  | some data => Cursor.value data
  | none => .ok none

end SstIter

instance {fuel : ℕ} {ρ : Type} [BlockReader ρ] :
    Cursor (SstIter fuel ρ) Bytes (Entry Bytes) Fault where
  valid := SstIter.valid
  key := SstIter.key
  value := SstIter.value
  seekToFirst := SstIter.seekToFirst
  seek := SstIter.seek
  next := SstIter.next

end Todb
