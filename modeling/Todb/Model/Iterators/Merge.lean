import Todb.Library.Merge
import Todb.Model.Storage.Fault

/-! # Merging iterators

`MergeIter` merges any number of cursors by a heap, `TwoMergeIter` two of them with the first
one winning, `ConcatIter` chains cursors over ascending ranges. -/

namespace Todb

open Library

/-! ## `MergeIter` -/

/-- A source of the merge; a smaller level is newer. -/
structure HeapWrap (ι : Type) where
  level : ℕ
  iter : ι
deriving DecidableEq

section Merge

variable {ι κ ν ε : Type} [LinearOrder κ] [Cursor ι κ ν ε]

namespace HeapWrap

/-- The key the heap compares; one that cannot be read counts as missing. -/
def key? (self : HeapWrap ι) : Option κ :=
  match Cursor.key self.iter with
  | .ok key => key
  | .error _ => none

/-- `Ord for HeapWrap` (forward) and `Ord for MaxHeapWrap` (reverse): whether a heap yields
`self` before `other`. Sources without a key sink. -/
def precedes (d : Direction) (self other : HeapWrap ι) : Bool :=
  match self.key?, other.key? with
  | some a, some b => decide (d.comesBefore a b ∨ a = b ∧ self.level ≤ other.level)
  | none, some _ => false
  | _, none => true

/-- Calls every source in turn; the first failure ends the loop. -/
def moveAll (move : ι → Ran ε ι) : List (HeapWrap ι) → Ran ε (List (HeapWrap ι))
  | [] => .ok []
  | w :: ws =>
      ((move w.iter).map fun iter => { w with iter } :: ws).bind fun _ =>
        (moveAll move ws).map ({ w with iter := (move w.iter).state } :: ·)

end HeapWrap

/-- `heap` holds the elements of the active heap, which is a forward or a reverse one. -/
structure MergeIter (ι : Type) where
  items : List (HeapWrap ι)
  active : Direction
  heap : List (HeapWrap ι)
deriving DecidableEq

namespace MergeIter

def new (iters : List ι) : MergeIter ι :=
  ⟨iters.mapIdx fun level iter => ⟨level, iter⟩, .forward, []⟩

/-- `BinaryHeap::pop`: the element that precedes all others, and the rest. -/
def pop (d : Direction) : List (HeapWrap ι) → Option (HeapWrap ι × List (HeapWrap ι))
  | [] => none
  | w :: ws =>
      match pop d ws with
      | none => some (w, [])
      | some (best, rest) => if w.precedes d best then some (w, ws) else some (best, w :: rest)

def peek (self : MergeIter ι) : Option (HeapWrap ι) := (pop self.active self.heap).map Prod.fst

/-- Moves every source from the heap back into `items`. -/
def drainToItems (self : MergeIter ι) : MergeIter ι :=
  { self with items := self.items ++ self.heap, heap := [] }

/-- `build_forward_heap` and `build_reverse_heap`: valid sources go into the heap. -/
def buildHeap (d : Direction) (self : MergeIter ι) : MergeIter ι :=
  { items := self.items.filter fun w => !Cursor.valid w.iter
    active := d
    heap := self.items.filter fun w => Cursor.valid w.iter }

/-- Positions every source and rebuilds the heap. -/
def place (d : Direction) (move : ι → Ran ε ι) (self : MergeIter ι) : Ran ε (MergeIter ι) :=
  let self := self.drainToItems
  ((HeapWrap.moveAll move self.items).map fun items => { self with items }).bind fun self =>
    .ok (self.buildHeap d)

/-- Only a heap of the same direction is advanced. A source whose `next` fails has been moved
out of the heap and is not put back. -/
def next (d : Direction) (self : MergeIter ι) : Ran ε (MergeIter ι) :=
  if self.active = d then
    match pop d self.heap with
    | none => .ok self
    | some (w, rest) =>
        (Cursor.next d w.iter).chain (fun _ => { self with heap := rest }) fun iter =>
          if Cursor.valid iter then .ok { self with heap := rest ++ [{ w with iter }] }
          else .ok { self with heap := rest, items := self.items ++ [{ w with iter }] }
  else .ok self

end MergeIter

instance : Cursor (MergeIter ι) κ ν ε where
  valid self := self.peek.isSome
  key self := (self.peek.map fun w => Cursor.key w.iter).getD (.ok none)
  value self := (self.peek.map fun w => Cursor.value w.iter).getD (.ok none)
  seekToFirst d self := self.place d (Cursor.seekToFirst d)
  seek d self target := self.place d (Cursor.seek d · target)
  next := MergeIter.next

end Merge

/-! ## `TwoMergeIter` -/

/-- Which side of a merge is current. -/
inductive Side
  | a
  | b
deriving DecidableEq, Repr

/-- The first side wins on equal keys. `fuel` bounds the loop that skips the other side. -/
structure TwoMergeIter (fuel : ℕ) (α β : Type) where
  a : α
  b : β
  current : Option Side

namespace TwoMergeIter

variable {α β κ ν : Type} [LinearOrder κ] [Cursor α κ ν Fault] [Cursor β κ ν Fault] {fuel : ℕ}

/-- `key().unwrap()`. -/
def unwrapKey {ι : Type} [Cursor ι κ ν Fault] (iter : ι) : Outcome κ := do
  match ← Cursor.key iter with
  | some key => return key
  | none => throw .panic

/-- `choose` and `choose_reverse`. -/
def choose (d : Direction) (self : TwoMergeIter fuel α β) : Outcome (Option Side) :=
  match Cursor.valid self.a, Cursor.valid self.b with
  | false, false => .ok none
  | true, false => .ok (some .a)
  | false, true => .ok (some .b)
  | true, true => do
      let ak ← unwrapKey self.a
      let bk ← unwrapKey self.b
      return some (if d.comesBefore bk ak then .b else .a)

/-- `skip_b_if_equal` and `skip_b_if_equal_rev`. -/
def skipB (d : Direction) : ℕ → TwoMergeIter fuel α β → Ran Fault (TwoMergeIter fuel α β)
  | 0, self => .fail .outOfFuel self
  | n + 1, self =>
      if Cursor.valid self.a && Cursor.valid self.b then
        Ran.read (Cursor.key self.a) self fun ak => Ran.read (Cursor.key self.b) self fun bk =>
          if ak = bk then
            ((Cursor.next d self.b).map fun b => { self with b }).bind (skipB d n)
          else .ok self
      else .ok self

/-- `skip_b_if_equal()?; current = choose()`. -/
def settle (d : Direction) (self : TwoMergeIter fuel α β) : Ran Fault (TwoMergeIter fuel α β) :=
  (skipB d fuel self).bind fun self =>
    Ran.read (choose d self) self fun current => .ok { self with current }

/-- Positions both sides. -/
def place (d : Direction) (moveA : α → Ran Fault α) (moveB : β → Ran Fault β)
    (self : TwoMergeIter fuel α β) : Ran Fault (TwoMergeIter fuel α β) :=
  ((moveA self.a).map fun a => { self with a }).bind fun self =>
    ((moveB self.b).map fun b => { self with b }).bind (settle d)

def new (fuel : ℕ) (a : α) (b : β) : Outcome (TwoMergeIter fuel α β) :=
  (place .forward (Cursor.seekToFirst .forward) (Cursor.seekToFirst .forward)
    ⟨a, b, none⟩).outcome

def next (d : Direction) (self : TwoMergeIter fuel α β) : Ran Fault (TwoMergeIter fuel α β) :=
  match self.current with
  | some .a => ((Cursor.next d self.a).map fun a => { self with a }).bind (settle d)
  | some .b => ((Cursor.next d self.b).map fun b => { self with b }).bind (settle d)
  | none => .ok self

end TwoMergeIter

instance {α β κ ν : Type} [LinearOrder κ] [Cursor α κ ν Fault] [Cursor β κ ν Fault] {fuel : ℕ} :
    Cursor (TwoMergeIter fuel α β) κ ν Fault where
  valid self := self.current.isSome
  key self := match self.current with
    | some .a => Cursor.key self.a
    | some .b => Cursor.key self.b
    | none => .ok none
  value self := match self.current with
    | some .a => Cursor.value self.a
    | some .b => Cursor.value self.b
    | none => .ok none
  seekToFirst d self := self.place d (Cursor.seekToFirst d) (Cursor.seekToFirst d)
  seek d self target := self.place d (Cursor.seek d · target) (Cursor.seek d · target)
  next := TwoMergeIter.next

/-! ## `ConcatIter` -/

/-- Cursors over ranges in ascending key order. -/
structure ConcatIter (ι : Type) where
  iter : List ι
  curr : ℕ

namespace ConcatIter

variable {ι κ ν : Type} [Cursor ι κ ν Fault]

def new (iter : List ι) : ConcatIter ι := ⟨iter, 0⟩

def valid (self : ConcatIter ι) : Bool := self.iter[self.curr]?.any Cursor.valid

/-- A call on `self.iter[i]`, which is then told apart by whether it is valid. -/
def moveAt (i : ℕ) (move : ι → Ran Fault ι) (self : ConcatIter ι)
    (onValid onInvalid : ConcatIter ι → Ran Fault (ConcatIter ι)) : Ran Fault (ConcatIter ι) :=
  Ran.read (index self.iter i) self fun iter =>
    ((move iter).map fun iter => { self with iter := self.iter.set i iter }).bind fun self =>
      if self.iter[i]?.any Cursor.valid then onValid self else onInvalid self

/-- The forward loops: on to the first cursor that is valid where it is put. -/
def forwardLoop (move : ι → Ran Fault ι) : ℕ → ConcatIter ι → Ran Fault (ConcatIter ι)
  | 0, self => .ok self
  | n + 1, self =>
      if self.curr < self.iter.length then
        self.moveAt self.curr move .ok fun self =>
          forwardLoop move n { self with curr := self.curr + 1 }
      else .ok self

/-- The reverse loops from `self.curr` down, which stop at cursor 0 in any case. -/
def reverseLoop (move : ι → Ran Fault ι) : ℕ → ConcatIter ι → Ran Fault (ConcatIter ι)
  | 0, self => .ok self
  | n + 1, self =>
      self.moveAt self.curr move .ok fun self =>
        if self.curr = 0 then .ok self
        else reverseLoop move n { self with curr := self.curr - 1 }

/-- The loop of the reverse `seek`, which leaves `curr` alone until a cursor is valid. -/
def reverseSeekLoop (move : ι → Ran Fault ι) : ℕ → ConcatIter ι → Ran Fault (ConcatIter ι)
  | 0, self => .ok { self with curr := 0 }
  | n + 1, self =>
      self.moveAt n move (fun self => .ok { self with curr := n }) (reverseSeekLoop move n)

def seekToFirst (d : Direction) (self : ConcatIter ι) : Ran Fault (ConcatIter ι) :=
  match d with
  | .forward =>
      forwardLoop (Cursor.seekToFirst .forward) self.iter.length { self with curr := 0 }
  | .reverse =>
      if self.iter.isEmpty then .ok self
      else reverseLoop (Cursor.seekToFirst .reverse) self.iter.length
        { self with curr := self.iter.length - 1 }

def seek (d : Direction) (self : ConcatIter ι) (target : κ) : Ran Fault (ConcatIter ι) :=
  match d with
  | .forward =>
      forwardLoop (Cursor.seek .forward · target) self.iter.length { self with curr := 0 }
  | .reverse => reverseSeekLoop (Cursor.seek .reverse · target) self.iter.length self

def next (d : Direction) (self : ConcatIter ι) : Ran Fault (ConcatIter ι) :=
  if !self.valid then .ok self
  else
    self.moveAt self.curr (Cursor.next d) .ok fun self =>
      match d with
      | .forward => forwardLoop (Cursor.seekToFirst .forward) self.iter.length
          { self with curr := self.curr + 1 }
      | .reverse =>
          if 0 < self.curr then
            reverseLoop (Cursor.seekToFirst .reverse) self.iter.length
              { self with curr := self.curr - 1 }
          else .ok self

end ConcatIter

instance {ι κ ν : Type} [Cursor ι κ ν Fault] : Cursor (ConcatIter ι) κ ν Fault where
  valid := ConcatIter.valid
  key self := if self.valid then
      (self.iter[self.curr]?.map fun iter => Cursor.key iter).getD (.ok none) else .ok none
  value self := if self.valid then
      (self.iter[self.curr]?.map fun iter => Cursor.value iter).getD (.ok none) else .ok none
  seekToFirst := ConcatIter.seekToFirst
  seek := ConcatIter.seek
  next := ConcatIter.next

end Todb
