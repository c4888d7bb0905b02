import Todb.Model.Sst.Builder

/-! # Cached entry headers

The decoding iterators decode the header of an entry when they are moved to it and keep it for
`value`. A move that fails leaves the header of an earlier entry behind, so a value is an entry's
own exactly if the header kept is that of the entry the input stands at. -/

namespace Todb

open Library

/-! ## A cursor and a header -/

section Cached

variable {ι κ η ω : Type} [Cursor ι κ Bytes Fault] (decode : Bytes → Outcome η)
  (read : Bytes → η → Outcome (Option ω)) (Own : Bytes → ω → Prop)

/-- The header kept, if there is one, is that of the entry at the input. -/
def HeaderFits (input : ι) (header : Option η) : Prop :=
  Cursor.valid input = true → ∀ bytes, Cursor.value input = .ok (some bytes) →
    ∀ h, header = some h → decode bytes = .ok h

/-- The header kept after a call on the input: a failure keeps the one before. -/
def cachedAfter (header : Option η) (call : Ran Fault ι) : Option η :=
  match call.result with
  | .error _ => header
  | .ok () =>
      if !Cursor.valid call.state then none
      else match Cursor.value call.state with
        | .ok (some bytes) => match decode bytes with
          | .ok h => some h
          | .error _ => header
        | _ => header

/-- A call that may be made with the given header kept: the entry it leads to decodes, and to the
same header if the call itself fails. With no header kept any call may be made. -/
def Decodable (header : Option η) (call : Ran Fault ι) : Prop :=
  ∀ kept, header = some kept → Cursor.valid call.state = true →
    ∀ bytes, Cursor.value call.state = .ok (some bytes) →
      ∃ h, decode bytes = .ok h ∧ (call.result = .ok () ∨ h = kept)

/-- The `value` of a decoding iterator: the current bytes, read under the header kept. -/
def readUnder (input : ι) (header : Option η) : Outcome (Option ω) :=
  if !Cursor.valid input then .ok none
  else do
    match ← Cursor.value input, header with
    | some bytes, some h => read bytes h
    | _, _ => return none

/-- What is read is what the current bytes of the input encode, and reading fails only if the
input does. -/
structure ReadsOwn (input : ι) (value : Outcome (Option ω)) : Prop where
  entry : ∀ e, value = .ok (some e) → ∃ bytes, Cursor.value input = .ok (some bytes) ∧ Own bytes e
  fault : ∀ fault, value = .error fault → Cursor.value input = .error fault

/-- Headers of the form `Kept` are those that are decoded, and one reads the entry that bytes
encode only if it is theirs. -/
structure Faithful (Kept : η → Prop) : Prop where
  kept : ∀ {bytes h}, decode bytes = .ok h → Kept h
  own : ∀ {bytes h}, decode bytes = .ok h → ∃ e, read bytes h = .ok (some e) ∧ Own bytes e
  only : ∀ {bytes h}, Kept h → (∀ fault, read bytes h ≠ .error fault) →
    (∀ e, read bytes h = .ok (some e) → Own bytes e) → decode bytes = .ok h

variable {decode read Own} {header : Option η} {call : Ran Fault ι} {input : ι} {Kept : η → Prop}

theorem headerFits_cachedAfter_iff :
    HeaderFits decode call.state (cachedAfter decode header call) ↔
      Decodable decode header call := by
  obtain ⟨result, input⟩ := call
  cases result with
  | error fault =>
      constructor
      · intro h kept hkept hvalid bytes hbytes
        exact ⟨kept, h hvalid bytes hbytes kept hkept, .inr rfl⟩
      · intro h hvalid bytes hbytes kept hkept
        obtain ⟨h', hdecode, hok | rfl⟩ := h kept hkept hvalid bytes hbytes
        · cases hok
        · exact hdecode
  | ok =>
      constructor
      · intro h kept hkept hvalid bytes hbytes
        simp only [HeaderFits, cachedAfter, hvalid, hbytes, Bool.not_true, Bool.false_eq_true,
          if_false] at h
        cases hdecode : decode bytes with
        | ok h' => exact ⟨h', rfl, .inl rfl⟩
        | error fault =>
            have hstale := h trivial bytes rfl kept (by simp [hdecode, hkept])
            rw [hdecode] at hstale
            cases hstale
      · intro h hvalid bytes hbytes h' hcached
        simp only [cachedAfter, show Cursor.valid input = true from hvalid,
          show Cursor.value input = .ok (some bytes) from hbytes, Bool.not_true, Bool.false_eq_true,
          if_false] at hcached
        cases hdecode : decode bytes with
        | ok h'' =>
            simp only [hdecode, Option.some.injEq] at hcached
            rw [hcached]
        | error fault =>
            simp only [hdecode] at hcached
            obtain ⟨h'', hok, -⟩ := h h' hcached hvalid bytes hbytes
            rw [hdecode] at hok
            cases hok

/-- Without both an entry and a header there is no value. -/
theorem readUnder_cases (read : Bytes → η → Outcome (Option ω)) (input : ι) (header : Option η) :
    (∃ bytes h, Cursor.valid input = true ∧ Cursor.value input = .ok (some bytes) ∧
        header = some h ∧ readUnder read input header = read bytes h) ∨
      readUnder read input header = .ok none ∨
      ∃ fault, readUnder read input header = .error fault ∧ Cursor.value input = .error fault := by
  rw [readUnder]
  by_cases hvalid : Cursor.valid input = true
  · simp only [hvalid, Bool.not_true, Bool.false_eq_true, if_false]
    match Cursor.value input, header with
    | .error fault, header => exact .inr (.inr ⟨fault, rfl, rfl⟩)
    | .ok none, header => exact .inr (.inl rfl)
    | .ok (some bytes), none => exact .inr (.inl rfl)
    | .ok (some bytes), some h => exact .inl ⟨bytes, h, trivial, rfl, rfl, rfl⟩
  · exact .inr (.inl (by simp [hvalid]))

theorem readUnder_eq {bytes : Bytes} (h : η) (hvalid : Cursor.valid input = true)
    (hbytes : Cursor.value input = .ok (some bytes)) :
    readUnder read input (some h) = read bytes h := by
  simp [readUnder, hvalid, hbytes, bind, Except.bind]

theorem readsOwn_iff (hfaithful : Faithful decode read Own Kept)
    (hkept : ∀ h, header = some h → Kept h) :
    ReadsOwn Own input (readUnder read input header) ↔ HeaderFits decode input header := by
  constructor
  · intro hown hvalid bytes hbytes h hheader
    subst hheader
    rw [readUnder_eq h hvalid hbytes] at hown
    refine hfaithful.only (hkept h rfl) (fun fault hfault => ?_) (fun e he => ?_)
    · have hinput := hown.fault fault hfault
      rw [hbytes] at hinput
      cases hinput
    · obtain ⟨own, hsame, hencodes⟩ := hown.entry e he
      obtain rfl := Option.some.inj (Except.ok.inj (hbytes.symm.trans hsame))
      exact hencodes
  · intro hfits
    rcases readUnder_cases read input header with
      ⟨bytes, h, hvalid, hbytes, hheader, hread⟩ | hnone | ⟨fault, hfault, hinput⟩
    · obtain ⟨e, he, hencodes⟩ := hfaithful.own (hfits hvalid bytes hbytes h hheader)
      rw [hread, he]
      refine ⟨fun e' he' => ?_, by simp⟩
      obtain rfl := Option.some.inj (Except.ok.inj he')
      exact ⟨bytes, hbytes, hencodes⟩
    · rw [hnone]
      exact ⟨by simp, by simp⟩
    · rw [hfault]
      refine ⟨by simp, fun fault' hfault' => ?_⟩
      obtain rfl := Except.error.inj hfault'
      exact hinput

theorem kept_cachedAfter (hfaithful : Faithful decode read Own Kept)
    (hkept : ∀ h, header = some h → Kept h) (call : Ran Fault ι) :
    ∀ h, cachedAfter decode header call = some h → Kept h := by
  intro h hcached
  rw [cachedAfter] at hcached
  split at hcached
  · exact hkept h hcached
  · split at hcached
    · cases hcached
    · split at hcached
      · split at hcached
        · rename_i hdecode
          obtain rfl := Option.some.inj hcached
          exact hfaithful.kept hdecode
        · exact hkept h hcached
      · exact hkept h hcached

end Cached

/-! ## Data entries -/

namespace DataEntryDecodeIter

variable {ι κ : Type} [Cursor ι κ Bytes Fault]

/-- The bytes are an entry of this version, and this one. -/
def EncodedAs (bytes : Bytes) : Entry Bytes → Prop
  | .put payload => bytes = dataEntryVersion :: 0 :: payload
  | .delete => ∃ rest, bytes = dataEntryVersion :: 1 :: rest

/-- The payload that a header describes. -/
def payloadOf (bytes : Bytes) (header : EntryHeader) : Outcome (Option (Entry Bytes)) := do
  let payload ← slice bytes header.payloadStart bytes.length
  match header.entryKind with
  | .put => return some (.put payload)
  | .delete => return some .delete

theorem value_eq (self : DataEntryDecodeIter ι) :
    self.value = readUnder payloadOf self.input self.entryHeader := by
  obtain ⟨input, header⟩ := self
  simp only [value, readUnder, payloadOf]
  rcases Cursor.value input with fault | (- | bytes)
  · rfl
  · rfl
  · cases header <;> rfl

theorem decodeEntryHeader_eq_ok {bytes : Bytes} {h : EntryHeader} :
    decodeEntryHeader bytes = .ok h ↔
      (h = ⟨.put, 2⟩ ∧ ∃ payload, bytes = dataEntryVersion :: 0 :: payload) ∨
        (h = ⟨.delete, 2⟩ ∧ ∃ rest, bytes = dataEntryVersion :: 1 :: rest) := by
  match bytes with
  | [] => simp [decodeEntryHeader]
  | [version] => simp [decodeEntryHeader]
  | version :: kind :: payload =>
      by_cases hversion : version = dataEntryVersion
      · by_cases hput : kind = 0
        · simp [decodeEntryHeader, hversion, hput, eq_comm]
        · by_cases hdelete : kind = 1
          · simp [decodeEntryHeader, hversion, hdelete, eq_comm]
          · simp [decodeEntryHeader, hversion, hput, hdelete]
      · simp [decodeEntryHeader, hversion]

/-- Under a header of two bytes. -/
theorem payloadOf_cons (version kind' : UInt8) (payload : Bytes) (kind : EntryKind) :
    payloadOf (version :: kind' :: payload) ⟨kind, 2⟩ =
      .ok (some (match kind with | .put => .put payload | .delete => .delete)) := by
  cases kind <;> simp [payloadOf, slice, bind, Except.bind, pure, Except.pure]

theorem faithful : Faithful decodeEntryHeader payloadOf EncodedAs fun h => h.payloadStart = 2 where
  kept hdecode := by
    rcases decodeEntryHeader_eq_ok.mp hdecode with ⟨rfl, -⟩ | ⟨rfl, -⟩ <;> rfl
  own hdecode := by
    rcases decodeEntryHeader_eq_ok.mp hdecode with ⟨rfl, payload, rfl⟩ | ⟨rfl, rest, rfl⟩
    · exact ⟨.put payload, payloadOf_cons _ _ _ .put, rfl⟩
    · exact ⟨.delete, payloadOf_cons _ _ _ .delete, rest, rfl⟩
  only := by
    rintro bytes ⟨kind, start⟩ rfl hfault hown
    match bytes with
    | [] | [_] => exact absurd rfl (hfault .panic)
    | version :: kind' :: payload =>
        have hencodes := hown _ (payloadOf_cons version kind' payload kind)
        rw [decodeEntryHeader_eq_ok]
        cases kind with
        | put => exact .inl ⟨rfl, payload, hencodes⟩
        | delete => exact .inr ⟨rfl, hencodes⟩

theorem move_state (call : Ran Fault ι) (self : DataEntryDecodeIter ι) :
    (self.move call).state =
      ⟨call.state, cachedAfter decodeEntryHeader self.entryHeader call⟩ := by
  obtain ⟨result, input⟩ := call
  cases result with
  | error fault => rfl
  | ok =>
      change (refresh { self with input }).state = _
      rw [refresh, cachedAfter]
      split
      · rfl
      · match Cursor.value input with
        | .error fault => rfl
        | .ok none => rfl
        | .ok (some bytes) =>
            simp only [Ran.read_ok]
            cases decodeEntryHeader bytes <;> rfl

theorem call_state (self : DataEntryDecodeIter ι) (c : Cursor.Call κ) :
    (Cursor.call self c).state = ⟨(Cursor.call self.input c).state,
      cachedAfter decodeEntryHeader self.entryHeader (Cursor.call self.input c)⟩ := by
  cases c <;> exact move_state _ self

theorem kept_after (input : ι) (history : List (Cursor.Call κ)) :
    ∀ h, (Cursor.after history (new input)).entryHeader = some h → h.payloadStart = 2 := by
  induction history using List.reverseRecOn with
  | nil => exact fun h hheader => nomatch hheader
  | append_singleton history c ih =>
      rw [Cursor.after_concat, call_state]
      exact kept_cachedAfter faithful ih _

/-- The value is the current entry's own. -/
def Own (iter : DataEntryDecodeIter ι) : Prop := ReadsOwn EncodedAs iter.input iter.value

theorem own_new (input : ι) : (new input).Own := by
  rw [Own, value_eq, readsOwn_iff faithful (by simp [new])]
  simp [HeaderFits, new]

theorem own_after_iff (input : ι) (history : List (Cursor.Call κ)) (c : Cursor.Call κ) :
    (Cursor.after (history ++ [c]) (new input)).Own ↔
      Decodable decodeEntryHeader (Cursor.after history (new input)).entryHeader
        (Cursor.call (Cursor.after history (new input)).input c) := by
  rw [Own, value_eq, readsOwn_iff faithful (kept_after input _), Cursor.after_concat, call_state]
  exact headerFits_cachedAfter_iff

end DataEntryDecodeIter

/-! ## Index entries -/

namespace IndexEntryDecodeIter

variable {ι κ : Type} [Cursor ι κ Bytes Fault]

/-- The bytes are an index entry of this version with this position. -/
def EncodedAs (bytes payload : Bytes) : Prop :=
  bytes = indexValueVersion :: payload ∧ ∃ position, Position.ofBytes payload = .ok position

def payloadOf (bytes : Bytes) (header : IndexEntryHeader) : Outcome (Option Bytes) := do
  return some (← slice bytes header.payloadStart bytes.length)

theorem value_eq (self : IndexEntryDecodeIter ι) :
    self.value = readUnder payloadOf self.input self.header := by
  obtain ⟨input, header⟩ := self
  simp only [value, readUnder, payloadOf]
  rcases Cursor.value input with fault | (- | bytes)
  · rfl
  · rfl
  · cases header <;> rfl

theorem decodeHeader_eq_ok {bytes : Bytes} {h : IndexEntryHeader} :
    decodeHeader bytes = .ok h ↔ h = ⟨1⟩ ∧ ∃ payload, EncodedAs bytes payload := by
  match bytes with
  | [] => simp [decodeHeader, EncodedAs]
  | version :: payload =>
      by_cases hversion : version = indexValueVersion
      · by_cases hlength : payload.length = positionLen
        · have hposition : payload.length = 8 := hlength
          simp [decodeHeader, EncodedAs, hversion, positionLen, Position.ofBytes, hposition, eq_comm]
        · have hposition : payload.length ≠ 8 := hlength
          simp [decodeHeader, EncodedAs, hversion, positionLen, Position.ofBytes, hposition]
      · simp [decodeHeader, EncodedAs, hversion]

theorem payloadOf_cons (version : UInt8) (payload : Bytes) :
    payloadOf (version :: payload) ⟨1⟩ = .ok (some payload) := by
  simp [payloadOf, slice, bind, Except.bind, pure, Except.pure]

theorem faithful : Faithful decodeHeader payloadOf EncodedAs fun h => h.payloadStart = 1 where
  kept hdecode := by rw [(decodeHeader_eq_ok.mp hdecode).1]
  own hdecode := by
    obtain ⟨rfl, payload, rfl, hposition⟩ := decodeHeader_eq_ok.mp hdecode
    exact ⟨payload, payloadOf_cons _ _, rfl, hposition⟩
  only := by
    rintro bytes ⟨start⟩ rfl hfault hown
    match bytes with
    | [] => exact absurd rfl (hfault .panic)
    | version :: payload =>
        exact decodeHeader_eq_ok.mpr ⟨rfl, payload, hown payload (payloadOf_cons _ _)⟩

theorem move_state (call : Ran Fault ι) (self : IndexEntryDecodeIter ι) :
    (self.move call).state = ⟨call.state, cachedAfter decodeHeader self.header call⟩ := by
  obtain ⟨result, input⟩ := call
  cases result with
  | error fault => rfl
  | ok =>
      change (refresh { self with input }).state = _
      rw [refresh, cachedAfter]
      split
      · rfl
      · match Cursor.value input with
        | .error fault => rfl
        | .ok none => rfl
        | .ok (some bytes) =>
            simp only [Ran.read_ok]
            cases decodeHeader bytes <;> rfl

theorem call_state (self : IndexEntryDecodeIter ι) (c : Cursor.Call κ) :
    (Cursor.call self c).state = ⟨(Cursor.call self.input c).state,
      cachedAfter decodeHeader self.header (Cursor.call self.input c)⟩ := by
  cases c <;> exact move_state _ self

theorem kept_after (input : ι) (history : List (Cursor.Call κ)) :
    ∀ h, (Cursor.after history (new input)).header = some h → h.payloadStart = 1 := by
  induction history using List.reverseRecOn with
  | nil => exact fun h hheader => nomatch hheader
  | append_singleton history c ih =>
      rw [Cursor.after_concat, call_state]
      exact kept_cachedAfter faithful ih _

/-- The value is the current entry's own. -/
def Own (iter : IndexEntryDecodeIter ι) : Prop := ReadsOwn EncodedAs iter.input iter.value

theorem own_new (input : ι) : (new input).Own := by
  rw [Own, value_eq, readsOwn_iff faithful (by simp [new])]
  simp [HeaderFits, new]

theorem own_after_iff (input : ι) (history : List (Cursor.Call κ)) (c : Cursor.Call κ) :
    (Cursor.after (history ++ [c]) (new input)).Own ↔
      Decodable decodeHeader (Cursor.after history (new input)).header
        (Cursor.call (Cursor.after history (new input)).input c) := by
  rw [Own, value_eq, readsOwn_iff faithful (kept_after input _), Cursor.after_concat, call_state]
  exact headerFits_cachedAfter_iff

end IndexEntryDecodeIter

/-- After any calls, of which any may have failed, the value of a decoding iterator is the current
entry's own exactly if the last call was made without a header kept, or led to an entry that
decodes (to the header kept, if the input's call failed). -/
theorem decoded_own_iff {ι κ : Type} [Cursor ι κ Bytes Fault] (input : ι) :
    ((DataEntryDecodeIter.new input).Own ∧ (IndexEntryDecodeIter.new input).Own) ∧
    ∀ (history : List (Cursor.Call κ)) (c : Cursor.Call κ),
      ((Cursor.after (history ++ [c]) (DataEntryDecodeIter.new input)).Own ↔
        Decodable DataEntryDecodeIter.decodeEntryHeader
          (Cursor.after history (DataEntryDecodeIter.new input)).entryHeader
          (Cursor.call (Cursor.after history (DataEntryDecodeIter.new input)).input c)) ∧
      ((Cursor.after (history ++ [c]) (IndexEntryDecodeIter.new input)).Own ↔
        Decodable IndexEntryDecodeIter.decodeHeader
          (Cursor.after history (IndexEntryDecodeIter.new input)).header
          (Cursor.call (Cursor.after history (IndexEntryDecodeIter.new input)).input c)) :=
  ⟨⟨DataEntryDecodeIter.own_new input, IndexEntryDecodeIter.own_new input⟩, fun history c =>
    ⟨DataEntryDecodeIter.own_after_iff input history c,
      IndexEntryDecodeIter.own_after_iff input history c⟩⟩

/-- A block of two cells. -/
def twoCells (first second : Bytes) : Outcome NormalBlockIter :=
  NormalBlockIter.new (finishBlock 96 [([1], first), ([2], second)])

/-- An entry of a kind that does not exist is returned as a `Put`, an entry of one byte makes
`value` slice out of range, and an index entry of another version is returned as a position. -/
theorem stale_header_used :
    (∃ it, twoCells [1, 0, 7] [1, 2, 9] = .ok it ∧
      let self := Cursor.after [.seekToFirst .forward, .next .forward] (DataEntryDecodeIter.new it)
      Cursor.value self.input = .ok (some [1, 2, 9]) ∧ self.value = .ok (some (.put [9]))) ∧
    (∃ it, twoCells [1, 0, 7] [5] = .ok it ∧
      let self := Cursor.after [.seekToFirst .forward, .next .forward] (DataEntryDecodeIter.new it)
      Cursor.value self.input = .ok (some [5]) ∧ self.value = .error .panic) ∧
    ∃ it, twoCells [1, 0, 0, 0, 0, 0, 0, 0, 0] [2, 0, 0, 0, 0, 0, 0, 0, 7] = .ok it ∧
      let self := Cursor.after [.seekToFirst .forward, .next .forward] (IndexEntryDecodeIter.new it)
      Cursor.value self.input = .ok (some [2, 0, 0, 0, 0, 0, 0, 0, 7]) ∧
        self.value = .ok (some [0, 0, 0, 0, 0, 0, 0, 7]) :=
  ⟨⟨_, rfl, rfl, rfl⟩, ⟨_, rfl, rfl, rfl⟩, _, rfl, rfl, rfl⟩

end Todb
