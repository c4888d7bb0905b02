import Todb.Model.Iterators.Merge
import Todb.Model.Lsm.Store
import Todb.Model.Sst.SstIter

/-! # Scans

A scan merges cursors over the memtables and the files of the state it took. The memtables
are shared with the writers: a cursor sees a table's current contents at every call. -/

namespace Todb.Lsm

open Library

/-! ## Memtable cursors -/

/-- `mem` is the shared map the cursor points into and `map` its contents as the next call
finds them; `item` is the entry the cursor has cloned. -/
structure OwnedMemTableIter where
  mem : MemId
  map : SortedMap Bytes (Entry Bytes)
  item : Option (Bytes × Entry Bytes)

namespace OwnedMemTableIter

/-- The entries in scan order. -/
def entries (d : Direction) (self : OwnedMemTableIter) : List (Bytes × Entry Bytes) :=
  match d with
  | .forward => self.map.entries
  | .reverse => self.map.entries.reverse

def seekToFirst (d : Direction) (self : OwnedMemTableIter) : OwnedMemTableIter :=
  { self with item := (self.entries d).head? }

/-- `lower_bound(Included)` and `upper_bound(Included)`. -/
def seek (d : Direction) (self : OwnedMemTableIter) (target : Bytes) : OwnedMemTableIter :=
  { self with item := (self.entries d).find? fun e => !decide (d.comesBefore e.1 target) }

/-- `Entry::next` and `Entry::prev` find the neighbour in the map as it is now. -/
def next (d : Direction) (self : OwnedMemTableIter) : OwnedMemTableIter :=
  { self with
    item := self.item.bind fun item =>
      (self.entries d).find? fun e => decide (d.comesBefore item.1 e.1) }

end OwnedMemTableIter

instance : Cursor OwnedMemTableIter Bytes (Entry Bytes) Fault where
  valid self := self.item.isSome
  key self := .ok (self.item.map Prod.fst)
  value self := .ok (self.item.map Prod.snd)
  seekToFirst d self := .ok (self.seekToFirst d)
  seek d self target := .ok (self.seek d target)
  next d self := .ok (self.next d)

/-- `MemTable::iter` on a shared table. -/
def OwnedMemTableIter.new (mems : MemId → MemTable Bytes Bytes) (mem : MemId) : OwnedMemTableIter :=
  ⟨mem, (mems mem).map, none⟩

/-! ## Files -/

/-- The footer is found by the length in the file's last four bytes. -/
def DiskManager.open (self : DiskManager) (id : SstId) : Outcome (FileBlockReader × SstFooter) :=
  match self.files id with
  | none => .error (.err (.notFound s!"sst {id}"))
  | some file =>
      if file.length < 4 then
        .error (.err (.invalidValue s!"sst {id}: file too small for footer trailer"))
      else
        let footerTotal := ofBe (file.drop (file.length - 4)) + 4
        if file.length < footerTotal then
          .error (.err (.invalidValue s!"sst {id}: file too small for footer body"))
        else do
          let footer ← SstFooter.decode (file.drop (file.length - footerTotal))
          return (⟨file, self.blockSize⟩, footer)

/-! ## `build_merged_iter` -/

section Types

variable (fuel : ℕ)

abbrev MemSide := MergeIter OwnedMemTableIter

abbrev L0Side := MergeIter (SstIter fuel FileBlockReader)

abbrev LnSide := MergeIter (ConcatIter (SstIter fuel FileBlockReader))

abbrev SstSide := TwoMergeIter fuel (L0Side fuel) (LnSide fuel)

abbrev MergedIter := TwoMergeIter fuel MemSide (SstSide fuel)

end Types

def openSst (fuel : ℕ) (disk : DiskManager) (sst : SstMeta) :
    Outcome (SstIter fuel FileBlockReader) := do
  let (reader, footer) ← disk.open sst.id
  return SstIter.new fuel reader footer

/-- The cursors over the files: L0 wins over the levels below it. -/
def buildSstSide (fuel : ℕ) (disk : DiskManager) (state : LsmState) : Outcome (SstSide fuel) := do
  let l0Iters ← state.l0.mapM (openSst fuel disk)
  let lnIters ← (state.levels.drop 1).mapM fun level => do
    return ConcatIter.new (← level.ssts.mapM (openSst fuel disk))
  TwoMergeIter.new fuel (MergeIter.new l0Iters) (MergeIter.new lnIters)

def buildMergedIter (fuel : ℕ) (disk : DiskManager) (mems : MemId → MemTable Bytes Bytes)
    (state : LsmState) : Outcome (MergedIter fuel) := do
  let memIters := (state.activeMem :: state.immMemtables).map (OwnedMemTableIter.new mems)
  let sstMerge ← buildSstSide fuel disk state
  TwoMergeIter.new fuel (MergeIter.new memIters) sstMerge

/-! ## Range scans -/

inductive Bound
  | included (key : Bytes)
  | excluded (key : Bytes)
  | unbounded
deriving DecidableEq, Repr

structure ScanRange where
  lower : Bound
  upper : Bound
deriving DecidableEq

namespace ScanRange

/-- The bound a scan is positioned by. -/
def start (self : ScanRange) : Direction → Bound
  | .forward => self.lower
  | .reverse => self.upper

/-- The bound that `valid` checks. -/
def stop (self : ScanRange) : Direction → Bound
  | .forward => self.upper
  | .reverse => self.lower

end ScanRange

/-- `LsmForwardScan` and `LsmReverseScan`. -/
structure LsmScan (ι : Type) where
  dir : Direction
  inner : ι
  range : ScanRange

namespace LsmScan

variable {ι : Type} [Cursor ι Bytes (Entry Bytes) Fault]

/-- The loop of `init` over keys that equal an excluded bound. -/
def skipEqual (d : Direction) (key : Bytes) : ℕ → ι → Ran Fault ι
  | 0, inner => .fail .outOfFuel inner
  | n + 1, inner =>
      if Cursor.valid inner then
        Ran.read (Cursor.key inner) inner fun k =>
          if k = some key then (Cursor.next d inner).bind (skipEqual d key n) else .ok inner
      else .ok inner

def init (fuel : ℕ) (self : LsmScan ι) : Ran Fault (LsmScan ι) :=
  (match self.range.start self.dir with
    | .included key => Cursor.seek self.dir self.inner key
    | .excluded key => (Cursor.seek self.dir self.inner key).bind (skipEqual self.dir key fuel)
    | .unbounded => Cursor.seekToFirst self.dir self.inner).map fun inner => { self with inner }

/-- The key is on this side of the bound that ends the scan. -/
def withinStop (d : Direction) (stop : Bound) (key : Bytes) : Bool :=
  match stop with
  | .included bound => !decide (d.comesBefore bound key)
  | .excluded bound => decide (d.comesBefore key bound)
  | .unbounded => true

def valid (self : LsmScan ι) : Outcome Bool :=
  if Cursor.valid self.inner then do
    match ← Cursor.key self.inner with
    | some key => return withinStop self.dir (self.range.stop self.dir) key
    | none => throw .panic
  else .ok false

def key (self : LsmScan ι) : Outcome (Option Bytes) := do
  if ← self.valid then Cursor.key self.inner else return none

def value (self : LsmScan ι) : Outcome (Option (Entry Bytes)) := do
  if ← self.valid then Cursor.value self.inner else return none

def seekToFirst (self : LsmScan ι) : Ran Fault (LsmScan ι) :=
  (Cursor.seekToFirst self.dir self.inner).map fun inner => { self with inner }

def seek (self : LsmScan ι) (target : Bytes) : Ran Fault (LsmScan ι) :=
  (Cursor.seek self.dir self.inner target).map fun inner => { self with inner }

def next (self : LsmScan ι) : Ran Fault (LsmScan ι) :=
  (Cursor.next self.dir self.inner).map fun inner => { self with inner }

end LsmScan

/-- `LsmStore::scan` on a state, with the memtables as they are. -/
def openScan (fuel : ℕ) (disk : DiskManager) (mems : MemId → MemTable Bytes Bytes)
    (state : LsmState) (range : ScanRange) (d : Direction) :
    Outcome (LsmScan (MergedIter fuel)) := do
  let merged ← buildMergedIter fuel disk mems state
  (LsmScan.init fuel ⟨d, merged, range⟩).outcome

/-! ## Scans among writers -/

/-- The cursor with its table's current contents. -/
def OwnedMemTableIter.refresh (mems : MemId → MemTable Bytes Bytes) (self : OwnedMemTableIter) :
    OwnedMemTableIter :=
  { self with map := (mems self.mem).map }

def HeapWrap.refresh (mems : MemId → MemTable Bytes Bytes) (self : HeapWrap OwnedMemTableIter) :
    HeapWrap OwnedMemTableIter :=
  { self with iter := self.iter.refresh mems }

/-- The scan with the current contents of its memtables. -/
def refresh {fuel : ℕ} (mems : MemId → MemTable Bytes Bytes) (scan : LsmScan (MergedIter fuel)) :
    LsmScan (MergedIter fuel) :=
  { scan with inner := { scan.inner with a := { scan.inner.a with
      items := scan.inner.a.items.map (HeapWrap.refresh mems)
      heap := scan.inner.a.heap.map (HeapWrap.refresh mems) } } }

/-- What a scan was asked for: the state it took, its range and its direction. `disk` is a
ghost, the files when it was positioned. -/
structure Query where
  state : LsmState
  range : ScanRange
  dir : Direction
  disk : DiskManager

/-- A client that collects a scan. -/
inductive Scanner (fuel : ℕ)
  | idle
  /-- The snapshot is taken. -/
  | snapshot (state : LsmState) (range : ScanRange) (d : Direction)
  /-- The scan is positioned at an entry; `read` is what it has yielded with this entry. -/
  | reading (query : Query) (scan : LsmScan (MergedIter fuel)) (read : List (Bytes × Entry Bytes))
  /-- The scan came to its end. -/
  | finished (query : Query) (read : List (Bytes × Entry Bytes))
  /-- A call failed. -/
  | failed (query : Query) (fault : Fault) (read : List (Bytes × Entry Bytes))

inductive ScanEnd
  | open
  | finished
  | failed (fault : Fault)
deriving DecidableEq

/-- What a client has got so far, and how the scan ended if it has. -/
structure ScanOutcome where
  read : List (Bytes × Entry Bytes)
  ended : ScanEnd
deriving DecidableEq

namespace Scanner

variable {fuel : ℕ}

/-- The client looks at a positioned scan. -/
def look (query : Query) (read : List (Bytes × Entry Bytes)) (scan : LsmScan (MergedIter fuel)) :
    Scanner fuel :=
  match scan.valid, scan.key, scan.value with
  | .ok true, .ok (some key), .ok (some value) => .reading query scan (read ++ [(key, value)])
  | .ok true, .error fault, _ | .ok true, _, .error fault => .failed query fault read
  | .ok true, _, _ => .failed query .panic read
  | .ok false, _, _ => .finished query read
  | .error fault, _, _ => .failed query fault read

/-- `build_merged_iter` and `init`. -/
def position (query : Query) (mems : MemId → MemTable Bytes Bytes) : Scanner fuel :=
  match openScan fuel query.disk mems query.state query.range query.dir with
  | .ok scan => look query [] scan
  | .error fault => .failed query fault []

/-- `next`, with the memtables as they are now. -/
def advance (mems : MemId → MemTable Bytes Bytes) : Scanner fuel → Scanner fuel
  | .reading query scan read =>
      match (refresh mems scan).next.outcome with
      | .ok scan => look query read scan
      | .error fault => .failed query fault read
  | scanner => scanner

/-- The scanner after positioning and a number of `next` calls over unchanging memtables. -/
def static (query : Query) (mems : MemId → MemTable Bytes Bytes) (n : ℕ) : Scanner fuel :=
  (advance mems)^[n] (position query mems)

def outcome : Scanner fuel → ScanOutcome
  | .idle | .snapshot _ _ _ => ⟨[], .open⟩
  | .reading _ _ read => ⟨read, .open⟩
  | .finished _ read => ⟨read, .finished⟩
  | .failed _ fault read => ⟨read, .failed fault⟩

end Scanner

/-- One writer and any number of scanners. -/
structure Readers (fuel : ℕ) (ξ : Type) where
  store : Store Unit
  scanners : ξ → Scanner fuel

inductive ReadersLabel (ξ : Type)
  /-- The writer's next step. -/
  | write
  /-- The writer's next step, with its I/O failing. -/
  | writeFails
  | snapshot (x : ξ) (range : ScanRange) (d : Direction)
  | position (x : ξ)
  | next (x : ξ)

namespace Readers

variable {fuel : ℕ} {ξ : Type} [DecidableEq ξ]

/-- A store in which `write` has just been called, and no scan yet. -/
def start (store : Store Unit) (batch : WriteBatch) : Readers fuel ξ :=
  ⟨store.goto () (.append batch), fun _ => .idle⟩

def setScanner (self : Readers fuel ξ) (x : ξ) (scanner : Scanner fuel) : Readers fuel ξ :=
  { self with scanners := Function.update self.scanners x scanner }

def step (opt : LsmTableOption) (self : Readers fuel ξ) : ReadersLabel ξ → Option (Readers fuel ξ)
  | .write => (self.store.step opt (.step ())).map fun store => { self with store }
  | .writeFails => (self.store.step opt (.fail ())).map fun store => { self with store }
  | .snapshot x range d => some (self.setScanner x (.snapshot self.store.state range d))
  | .position x =>
      match self.scanners x with
      | .snapshot state range d => some (self.setScanner x
          (Scanner.position ⟨state, range, d, self.store.disk⟩ self.store.mems))
      | _ => none
  | .next x =>
      match self.scanners x with
      | .reading query scan read => some (self.setScanner x
          (Scanner.advance self.store.mems (.reading query scan read)))
      | _ => none

end Readers

end Todb.Lsm
