import Todb.Model.Wal.Buffer
import Todb.Model.Wal.Config

/-! # Callers of the WAL

Each step of a thread is one atomic operation of `append`, `sync`, `close` or the functions
they call, taken as sequentially consistent. -/

namespace Todb.Wal

open Library

abbrev BufId := ℕ

/-! ## Shared state -/

/-- How far the swap of the active buffer has come. This is a ghost: no code reads it. -/
inductive Phase
  | open      -- installed, no swapper
  | draining  -- won by a swapper that waits for `in_flight` to drain
  | frozen    -- drained, not yet handed to the flush thread
  | sent      -- handed over; `active` still points to it
deriving DecidableEq, Repr

/-- A slot claim, recorded as a ghost. -/
structure Issue where
  buf : BufId
  slot : ℕ
  pos : ℕ
  payload : Bytes
deriving DecidableEq, Repr

/-- The buffers and where they are. The free pool is a stack with its top first. The last
fields are ghosts: the slot claims in order, the LSNs of the appends that returned, and the
number of LSNs the flush thread has published. -/
structure Core where
  buffers : BufId → WalBuffer
  active : BufId
  freePool : List BufId
  flushQueue : List BufId
  durableLsn : ℕ
  phase : Phase
  issued : List Issue
  returned : List ℕ
  published : ℕ

/-- An atomic operation on one buffer. -/
def Core.modify (self : Core) (buf : BufId) (f : WalBuffer → WalBuffer) : Core :=
  { self with buffers := Function.update self.buffers buf (f (self.buffers buf)) }

inductive Handle
  | present
  | locked
  | taken
deriving DecidableEq, Repr

/-- The state threads share. As ghosts, it records for each `sync` and `close` that returned
`Ok` the LSNs returned before its call, and the result of the `sync`. -/
structure Shared extends Core where
  flushTx : Bool
  stopFlag : Bool
  flushHandle : Handle
  syncs : List (List ℕ × ℕ)
  closes : List (List ℕ)

def Shared.modify (self : Shared) (buf : BufId) (f : WalBuffer → WalBuffer) : Shared :=
  { self with toCore := self.toCore.modify buf f }

/-! ## Program counters -/

/-- An append that claimed bytes and is about to claim a slot. -/
structure Claim where
  buf : BufId
  pos : ℕ
  payload : Bytes
deriving DecidableEq, Repr

/-- An append that claimed a slot. Until `min_lsn` is loaded, `lsn` is a ghost. -/
structure Held extends Claim where
  slot : ℕ
  lsn : ℕ
deriving DecidableEq, Repr

inductive AppendPc
  | checkStop
  | loadActive
  | claimBytes (buf : BufId)
  | waitActive (old : BufId)
  | waitStop (old : BufId)
deriving DecidableEq, Repr

inductive HoldPc
  | loadMinLsn
  | enter
  | copy (k : ℕ)
  | store
  | leave
deriving DecidableEq, Repr

inductive SwapPc
  | cas
  | barrier
  | loadCount
  | storeCount (count : ℕ)
  | loadMinLsn (count : ℕ)
  | send (nextMinLsn : ℕ)
  | pop (nextMinLsn : ℕ)
  | reset (new : BufId) (nextMinLsn stage : ℕ)
  | install (new : BufId)
deriving DecidableEq, Repr

inductive SyncPc
  | checkStop
  | loadActive
  | loadMinLsn (buf : BufId)
  | loadAllocated (buf : BufId) (minLsn : ℕ)
  | poll (target : ℕ)
  | pollStop (target : ℕ)
  | sleep (target : ℕ)
  | finish
deriving DecidableEq, Repr

inductive ClosePc
  | lock
  | storeStop
  | loadActive
  | takeTx
  | join
deriving DecidableEq, Repr

/-- The caller of `try_swap_full`. -/
inductive Caller
  | append (payload : Bytes)
  | sync (before : List ℕ) (target : ℕ)
  | close (before : List ℕ)
deriving DecidableEq, Repr

/-- Where a thread is. `before` holds, as a ghost, the LSNs returned before the call. -/
inductive Pc
  | idle
  | append (payload : Bytes) (pc : AppendPc)
  | claimed (claim : Claim)
  | holding (held : Held) (pc : HoldPc)
  | swap (caller : Caller) (old : BufId) (pc : SwapPc)
  | sync (before : List ℕ) (pc : SyncPc)
  | close (before : List ℕ) (pc : ClosePc)
  | panicked
deriving DecidableEq, Repr

inductive Call
  | append (payload : Bytes)
  | sync
  | close
deriving DecidableEq, Repr

def Call.start (sh : Shared) : Call → Pc
  | .append payload => .append payload .checkStop
  | .sync => .sync sh.returned .checkStop
  | .close => .close sh.returned .lock

/-- Where `try_swap_full(old)` returns to. -/
def Caller.resume (old : BufId) : Caller → Pc
  | .append payload => .append payload (.waitActive old)
  | .sync before target => .sync before (.poll target)
  | .close before => .close before .takeTx

/-! ## Steps -/

section Steps

variable (crc32 : Bytes → UInt32) (cfg : WalConfig)

/-- `pos.checked_add(frame_len)` is `Some(end)` with `end <= capacity`. -/
def fits (pos len : ℕ) : Prop := pos + len < 2 ^ 64 ∧ pos + len ≤ cfg.bufferSize

instance (pos len : ℕ) : Decidable (fits cfg pos len) := inferInstanceAs (Decidable (_ ∧ _))

/-- The retry loop of `append` outside its critical section, and `wait_active_change`. -/
def stepAppend (sh : Shared) (payload : Bytes) : AppendPc → Shared × Pc
  | .checkStop => (sh, if sh.stopFlag then .idle else .append payload .loadActive)
  | .loadActive => (sh, .append payload (.claimBytes sh.active))
  | .claimBytes buf =>
      let pos := (sh.buffers buf).writePos
      (sh.modify buf fun b => { b with writePos := (pos + frameLen payload) % 2 ^ 64 },
        if fits cfg pos (frameLen payload) then .claimed ⟨buf, pos, payload⟩
        else .swap (.append payload) buf .cas)
  | .waitActive old =>
      (sh, .append payload (if sh.active = old then .waitStop old else .checkStop))
  | .waitStop old =>
      (sh, .append payload (if sh.stopFlag then .checkStop else .waitActive old))

/-- `claim_slot` with its assertion. -/
def stepClaimed (sh : Shared) (claim : Claim) : Shared × Pc :=
  let slot := (sh.buffers claim.buf).entriesAllocated
  let sh := sh.modify claim.buf fun b => { b with entriesAllocated := (slot + 1) % 2 ^ 64 }
  if slot < cfg.bufferSize / headerLen then
    ({ sh with issued := sh.issued ++ [⟨claim.buf, slot, claim.pos, claim.payload⟩] },
      .holding ⟨claim, slot, sh.issued.length⟩ .loadMinLsn)
  else (sh, .panicked)

/-- The rest of `append`: registration, encoding byte by byte, the slot word, and the return. -/
def stepHolding (sh : Shared) (held : Held) : HoldPc → Shared × Pc
  | .loadMinLsn =>
      let lsn := ((sh.buffers held.buf).minLsn + held.slot) % 2 ^ 64
      (sh, .holding { held with lsn } .enter)
  | .enter =>
      (sh.modify held.buf fun b => { b with inFlight := (b.inFlight + 1) % 2 ^ 32 },
        .holding held (.copy 0))
  | .copy k =>
      let frame := encode crc32 held.lsn held.payload
      (sh.modify held.buf fun b =>
          { b with data := Function.update b.data (held.pos + k) (frame.getD k 0) },
        .holding held (if k + 1 < frameLen held.payload then .copy (k + 1) else .store))
  | .store =>
      (sh.modify held.buf fun b =>
          { b with
            entries := Function.update b.entries held.slot
              (pack held.pos (frameLen held.payload % 2 ^ 32)) },
        .holding held .leave)
  | .leave =>
      let sh := sh.modify held.buf fun b =>
        { b with inFlight := (b.inFlight + (2 ^ 32 - 1)) % 2 ^ 32 }
      ({ sh with returned := sh.returned ++ [held.lsn] }, .idle)

/-- `try_swap_full`. It blocks in `pop_free_buffer` while the pool is empty. -/
def stepSwap (sh : Shared) (caller : Caller) (old : BufId) : SwapPc → Option (Shared × Pc)
  | .cas =>
      match (sh.buffers old).state with
      | .active =>
          let sh := sh.modify old fun b => { b with state := .full }
          some ({ sh with phase := .draining }, .swap caller old .barrier)
      | .full => some (sh, caller.resume old)
  | .barrier =>
      if (sh.buffers old).inFlight = 0 then
        some ({ sh with phase := .frozen }, .swap caller old .loadCount)
      else some (sh, .swap caller old .barrier)
  | .loadCount => some (sh, .swap caller old (.storeCount (sh.buffers old).entriesAllocated))
  | .storeCount count =>
      some (sh.modify old fun b => { b with count }, .swap caller old (.loadMinLsn count))
  | .loadMinLsn count =>
      some (sh, .swap caller old (.send (((sh.buffers old).minLsn + count) % 2 ^ 64)))
  | .send nextMinLsn =>
      let flushQueue := if sh.flushTx then sh.flushQueue ++ [old] else sh.flushQueue
      some ({ sh with flushQueue, phase := .sent }, .swap caller old (.pop nextMinLsn))
  | .pop nextMinLsn =>
      match sh.freePool with
      | new :: freePool =>
          some ({ sh with freePool }, .swap caller old (.reset new nextMinLsn 0))
      | [] => if sh.stopFlag then some (sh, caller.resume old) else none
  | .reset new nextMinLsn stage =>
      some (sh.modify new (WalBuffer.resetStore nextMinLsn stage), .swap caller old
        (if stage + 1 < WalBuffer.resetStores then .reset new nextMinLsn (stage + 1)
          else .install new))
  | .install new => some ({ sh with active := new, phase := .open }, caller.resume old)

/-- `sync` around its swap. -/
def stepSync (sh : Shared) (before : List ℕ) : SyncPc → Shared × Pc
  | .checkStop => (sh, if sh.stopFlag then .idle else .sync before .loadActive)
  | .loadActive => (sh, .sync before (.loadMinLsn sh.active))
  | .loadMinLsn buf => (sh, .sync before (.loadAllocated buf (sh.buffers buf).minLsn))
  | .loadAllocated buf minLsn =>
      let allocated := (sh.buffers buf).entriesAllocated
      let target := if 0 < allocated then (minLsn + allocated - 1) % 2 ^ 64 else minLsn - 1
      (sh, .swap (.sync before target) buf .cas)
  | .poll target =>
      (sh, .sync before (if sh.durableLsn < target then .pollStop target else .finish))
  | .pollStop target => (sh, if sh.stopFlag then .idle else .sync before (.sleep target))
  | .sleep target => (sh, .sync before (.poll target))
  | .finish =>
      ({ sh with syncs := sh.syncs ++ [(before, sh.durableLsn)] }, .idle)

/-- `close` around its swap. `stopped` says how the flush thread ended, if it did. -/
def stepClose (sh : Shared) (before : List ℕ) (stopped : Option Bool) :
    ClosePc → Option (Shared × Pc)
  | .lock =>
      match sh.flushHandle with
      | .present => some ({ sh with flushHandle := .locked }, .close before .storeStop)
      | .locked => none
      | .taken => some ({ sh with closes := sh.closes ++ [before] }, .idle)
  | .storeStop => some ({ sh with stopFlag := true }, .close before .loadActive)
  | .loadActive => some (sh, .swap (.close before) sh.active .cas)
  | .takeTx => some ({ sh with flushTx := false }, .close before .join)
  | .join =>
      match stopped with
      | none => none
      | some true =>
          some ({ sh with flushHandle := .taken, closes := sh.closes ++ [before] }, .idle)
      | some false => some ({ sh with flushHandle := .taken }, .panicked)

/-- One step of a thread that is inside a call. -/
def stepThread (sh : Shared) (stopped : Option Bool) : Pc → Option (Shared × Pc)
  | .idle => none
  | .append payload pc => some (stepAppend cfg sh payload pc)
  | .claimed claim => some (stepClaimed cfg sh claim)
  | .holding held pc => some (stepHolding crc32 sh held pc)
  | .swap caller old pc => stepSwap sh caller old pc
  | .sync before pc => some (stepSync sh before pc)
  | .close before pc => stepClose sh before stopped pc
  | .panicked => none

end Steps

end Todb.Wal
