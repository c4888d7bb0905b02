import Todb.Library.Machine
import Todb.Model.Wal.Flush

/-! # The WAL as a system of threads

Any number of callers, interleaved with the flush thread at the level of atomic operations. -/

namespace Todb.Wal

open Library

structure System (ι : Type) where
  shared : Shared
  pcs : ι → Pc
  flush : FlushThread

/-- Who moves next: an idle thread starts a call, a thread takes a step, the deadline of a
`sync` passes, or the flush thread takes a step. -/
inductive Label (ι : Type)
  | call (t : ι) (call : Call)
  | thread (t : ι)
  | timeout (t : ι)
  | flush
deriving DecidableEq, Repr

namespace System

variable {ι : Type} [DecidableEq ι]

/-- `Wal::open` on a fresh directory. The buffers' memory is uninitialised. -/
def init (cfg : WalConfig) (memory : BufId → ℕ → UInt8) : System ι where
  shared :=
    { buffers := fun b => .new (memory b) 0
      active := 0
      freePool := ((List.range cfg.bufferCount).map (· + 1)).reverse
      flushQueue := []
      durableLsn := 0
      phase := .open
      issued := []
      returned := []
      published := 0
      flushTx := true
      stopFlag := false
      flushHandle := .present
      syncs := []
      closes := [] }
  pcs _ := .idle
  flush := .init cfg

def setPc (self : System ι) (t : ι) (pc : Pc) : System ι :=
  { self with pcs := Function.update self.pcs t pc }

def step (crc32 : Bytes → UInt32) (cfg : WalConfig) (self : System ι) :
    Label ι → Option (System ι)
  | .call t call =>
      match self.pcs t with
      | .idle => some (self.setPc t (call.start self.shared))
      | _ => none
  | .thread t =>
      (stepThread crc32 cfg self.shared self.flush.stopped (self.pcs t)).map fun r =>
        { self with shared := r.1 }.setPc t r.2
  | .timeout t =>
      match self.pcs t with
      | .sync _ (.sleep _) => some (self.setPc t .idle)
      | _ => none
  | .flush =>
      (stepFlush cfg self.shared self.flush).map fun r => { self with shared := r.1, flush := r.2 }

end System

end Todb.Wal
