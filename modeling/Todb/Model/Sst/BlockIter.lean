import Todb.Library.Cursor
import Todb.Library.Search
import Todb.Model.Storage.Block

/-! # Iterators over one block

`NormalBlockIter` walks the raw entries of a block; the two decoding iterators
interpret its values as data entries and as child positions. -/

namespace Todb

open Library

/-! ## `NormalBlockIter` -/

/-- Block-format iterator. `curr = none` means exhausted or not positioned. -/
structure NormalBlockIter where
  block : Bytes
  keyOffsets : List ℕ
  valuesOffsets : List ℕ
  count : ℕ
  curr : Option ℕ
deriving DecidableEq

namespace NormalBlockIter

/-- The big-endian `u32` at byte `start`. -/
def readU32 (block : Bytes) (start : ℕ) : Outcome ℕ := do
  let buf ← slice block start (start + 4)
  return ofBe buf

/-- `n` consecutive offsets starting at byte `start`. -/
def readOffsets (block : Bytes) : ℕ → ℕ → Outcome (List ℕ)
  | 0, _ => .ok []
  | n + 1, start => do
      let offset ← readU32 block start
      let rest ← readOffsets block n (start + 4)
      return offset :: rest

/-- `NormalBlockIter::new`, which parses the header: the count and two offset tables,
each with a trailing sentinel. -/
def new (block : Bytes) : Outcome NormalBlockIter := do
  let count ← readU32 block 0
  let keyOffsets ← readOffsets block (count + 1) 4
  let valuesOffsets ← readOffsets block (count + 1) (4 + 4 * (count + 1))
  return ⟨block, keyOffsets, valuesOffsets, count, none⟩

/-- The bytes between two neighbouring offsets. -/
def cell (block : Bytes) (offsets : List ℕ) (i : ℕ) : Outcome Bytes := do
  let start ← index offsets i
  let stop ← index offsets (i + 1)
  slice block start stop

def keyAt (self : NormalBlockIter) (i : ℕ) : Outcome Bytes :=
  cell self.block self.keyOffsets i

def valueAt (self : NormalBlockIter) (i : ℕ) : Outcome Bytes :=
  cell self.block self.valuesOffsets i

def valid (self : NormalBlockIter) : Bool := self.curr.isSome

def key (self : NormalBlockIter) : Outcome (Option Bytes) :=
  match self.curr with
  | none => .ok none
  | some i => some <$> self.keyAt i

def value (self : NormalBlockIter) : Outcome (Option Bytes) :=
  match self.curr with
  | none => .ok none
  | some i => some <$> self.valueAt i

def withCurr (self : NormalBlockIter) (curr : Option ℕ) : NormalBlockIter :=
  { self with curr }

def seekToFirst (d : Direction) (self : NormalBlockIter) : Ran Fault NormalBlockIter :=
  match d with
  | .forward => .ok (self.withCurr (if 0 < self.count then some 0 else none))
  | .reverse => .ok (self.withCurr (if 0 < self.count then some (self.count - 1) else none))

/-- Forward: binary search for the first key `≥ target`. Reverse: for the first key
`> target`, then one step back. -/
def seek (d : Direction) (self : NormalBlockIter) (target : Bytes) :
    Ran Fault NormalBlockIter :=
  match d with
  | .forward =>
      let test := fun mid => do return decide ((← self.keyAt mid) < target)
      Ran.read (bisect test self.count 0 self.count) self fun lo =>
        .ok (self.withCurr (if lo < self.count then some lo else none))
  | .reverse =>
      let test := fun mid => do return decide ((← self.keyAt mid) ≤ target)
      Ran.read (bisect test self.count 0 self.count) self fun lo =>
        .ok (self.withCurr (if lo = 0 then none else some (lo - 1)))

def next (d : Direction) (self : NormalBlockIter) : Ran Fault NormalBlockIter :=
  match d, self.curr with
  | _, none => .ok self
  | .forward, some i => .ok (self.withCurr (if i + 1 < self.count then some (i + 1) else none))
  | .reverse, some i => .ok (self.withCurr (if i = 0 then none else some (i - 1)))

end NormalBlockIter

instance : Cursor NormalBlockIter Bytes Bytes Fault where
  valid := NormalBlockIter.valid
  key := NormalBlockIter.key
  value := NormalBlockIter.value
  seekToFirst := NormalBlockIter.seekToFirst
  seek := NormalBlockIter.seek
  next := NormalBlockIter.next

/-! ## Data entries -/

/-- A live value or a delete tombstone (`memtable::Entry`, `EntryValue`). -/
inductive Entry (ν : Type)
  | put (value : ν)
  | delete
deriving DecidableEq, Repr

inductive EntryKind
  | put
  | delete
deriving DecidableEq

structure EntryHeader where
  entryKind : EntryKind
  payloadStart : ℕ
deriving DecidableEq

def dataEntryVersion : UInt8 := 1

/-- Decodes the value of each entry to `Put` or `Delete`. -/
structure DataEntryDecodeIter (ι : Type) where
  input : ι
  entryHeader : Option EntryHeader
deriving DecidableEq

namespace DataEntryDecodeIter

variable {ι κ : Type} [Cursor ι κ Bytes Fault]

def new (input : ι) : DataEntryDecodeIter ι := ⟨input, none⟩

def decodeEntryHeader : Bytes → Outcome EntryHeader
  | version :: kind :: _ =>
      if version ≠ dataEntryVersion then
        .error (.err (.invalidValue s!"unknown data entry version: {version}"))
      else if kind = 0 then .ok ⟨.put, 2⟩
      else if kind = 1 then .ok ⟨.delete, 2⟩
      else .error (.err (.invalidValue s!"invalid entry kind: {kind}"))
  | _ => .error (.err (.invalidValue "entry header too short"))

def refresh (self : DataEntryDecodeIter ι) : Ran Fault (DataEntryDecodeIter ι) :=
  if !Cursor.valid self.input then .ok { self with entryHeader := none }
  else Ran.read (Cursor.value self.input) self fun
    | none => .fail (.err (.invalidValue "valid iterator has no entry value")) self
    | some value => Ran.read (decodeEntryHeader value) self fun header =>
        .ok { self with entryHeader := some header }

def value (self : DataEntryDecodeIter ι) : Outcome (Option (Entry Bytes)) :=
  if !Cursor.valid self.input then .ok none
  else do
    match ← Cursor.value self.input, self.entryHeader with
    | some bytes, some header =>
        let payload ← slice bytes header.payloadStart bytes.length
        match header.entryKind with
        | .put => return some (.put payload)
        | .delete => return some .delete
    | _, _ => return none

/-- Every positioning call moves the input and then decodes the header it reached. -/
def move (call : Ran Fault ι) (self : DataEntryDecodeIter ι) :
    Ran Fault (DataEntryDecodeIter ι) :=
  (call.map fun input => { self with input }).bind refresh

end DataEntryDecodeIter

instance {ι κ : Type} [Cursor ι κ Bytes Fault] :
    Cursor (DataEntryDecodeIter ι) κ (Entry Bytes) Fault where
  valid self := Cursor.valid self.input
  key self := Cursor.key self.input
  value := DataEntryDecodeIter.value
  seekToFirst d self := self.move (Cursor.seekToFirst d self.input)
  seek d self target := self.move (Cursor.seek d self.input target)
  next d self := self.move (Cursor.next d self.input)

/-! ## Index entries -/

def indexValueVersion : UInt8 := 1

def positionLen : ℕ := 8

structure IndexEntryHeader where
  payloadStart : ℕ
deriving DecidableEq

/-- Decodes the value of each entry to the position of a child block. -/
structure IndexEntryDecodeIter (ι : Type) where
  input : ι
  header : Option IndexEntryHeader
deriving DecidableEq

namespace IndexEntryDecodeIter

variable {ι κ : Type} [Cursor ι κ Bytes Fault]

def new (input : ι) : IndexEntryDecodeIter ι := ⟨input, none⟩

def decodeHeader : Bytes → Outcome IndexEntryHeader
  | [] => .error (.err (.invalidValue "index entry header too short"))
  | version :: payload =>
      if version ≠ indexValueVersion then
        .error (.err (.invalidValue s!"unknown index entry version: {version}"))
      else if payload.length ≠ positionLen then
        .error (.err (.invalidValue s!"invalid index entry payload length: {payload.length}"))
      else .ok ⟨1⟩

def refresh (self : IndexEntryDecodeIter ι) : Ran Fault (IndexEntryDecodeIter ι) :=
  if !Cursor.valid self.input then .ok { self with header := none }
  else Ran.read (Cursor.value self.input) self fun
    | none => .fail (.err (.invalidValue "valid iterator has no index entry value")) self
    | some value => Ran.read (decodeHeader value) self fun header =>
        .ok { self with header := some header }

/-- The payload bytes of the current entry (`IndexEntryValue`). -/
def value (self : IndexEntryDecodeIter ι) : Outcome (Option Bytes) :=
  if !Cursor.valid self.input then .ok none
  else do
    match ← Cursor.value self.input, self.header with
    | some bytes, some header => return some (← slice bytes header.payloadStart bytes.length)
    | _, _ => return none

def move (call : Ran Fault ι) (self : IndexEntryDecodeIter ι) :
    Ran Fault (IndexEntryDecodeIter ι) :=
  (call.map fun input => { self with input }).bind refresh

end IndexEntryDecodeIter

instance {ι κ : Type} [Cursor ι κ Bytes Fault] :
    Cursor (IndexEntryDecodeIter ι) κ Bytes Fault where
  valid self := Cursor.valid self.input
  key self := Cursor.key self.input
  value := IndexEntryDecodeIter.value
  seekToFirst d self := self.move (Cursor.seekToFirst d self.input)
  seek d self target := self.move (Cursor.seek d self.input target)
  next d self := self.move (Cursor.next d self.input)

/-- `seek_lower_bound`: on index blocks the search is the forward one whatever the
scan direction. -/
def IndexEntryDecodeIter.seekLowerBound {ι κ : Type} [Cursor ι κ Bytes Fault] (target : κ)
    (self : IndexEntryDecodeIter ι) : Ran Fault (IndexEntryDecodeIter ι) :=
  self.move (Cursor.seek .forward self.input target)

end Todb
