import Todb.Library.ByteCodec
import Todb.Library.Run

/-! # Errors, panics and slices -/

namespace Todb

open Library

/-- `StorageError`. -/
inductive StorageError
  | invalidKey (msg : String)
  | invalidValue (msg : String)
  | invalidConfig (msg : String)
  | rowEncodeError (msg : String)
  | transactionConflict (msg : String)
  | notFound (msg : String)
  | internalError (msg : String)
  | ioError (msg : String)
  | walCorrupted (msg : String)
deriving DecidableEq, Repr

/-- The text of an error. -/
def StorageError.display : StorageError → String
  | invalidKey msg => "invalid key: " ++ msg
  | invalidValue msg => "invalid values: " ++ msg
  | invalidConfig msg => "invalid config: " ++ msg
  | rowEncodeError msg => "row encode error: " ++ msg
  | transactionConflict msg => "transaction conflict: " ++ msg
  | notFound msg => "not found: " ++ msg
  | internalError msg => "internal error: " ++ msg
  | ioError msg => "I/O error: " ++ msg
  | walCorrupted msg => "wal corrupted: " ++ msg

/-- Why a call does not return normally: an `Err`, a panic (an assertion, an index out of
range, an arithmetic overflow), or a loop whose iteration budget in the model ran out. -/
inductive Fault
  | err (e : StorageError)
  | panic
  | outOfFuel
deriving DecidableEq, Repr

abbrev Outcome := Except Fault

/-- `vec[i]`. -/
def index {α : Type} (xs : List α) (i : ℕ) : Outcome α :=
  match xs[i]? with
  | some x => .ok x
  | none => .error .panic

/-- `bytes[start..stop]`. -/
def slice (bytes : Bytes) (start stop : ℕ) : Outcome Bytes :=
  if start ≤ stop ∧ stop ≤ bytes.length then .ok ((bytes.drop start).take (stop - start))
  else .error .panic

@[simp] theorem index_of_lt {α : Type} {xs : List α} {i : ℕ} (h : i < xs.length) :
    index xs i = .ok xs[i] := by
  simp [index, List.getElem?_eq_getElem h]

theorem slice_eq_ok {bytes : Bytes} {start stop : ℕ} (h : start ≤ stop)
    (hstop : stop ≤ bytes.length) :
    slice bytes start stop = .ok ((bytes.drop start).take (stop - start)) := by
  simp [slice, h, hstop]

/-- Slicing out the middle of a concatenation. -/
theorem slice_append_middle (front middle back : Bytes) {start stop : ℕ}
    (hstart : start = front.length) (hstop : stop = front.length + middle.length) :
    slice (front ++ middle ++ back) start stop = .ok middle := by
  subst hstart hstop
  rw [slice_eq_ok (Nat.le_add_right _ _) (by simp)]
  simp

end Todb
