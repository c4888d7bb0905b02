import Todb.Model.Lsm.Scan

/-! # The shards of an engine

The stores of an engine share its disk manager: they keep their files in one directory and take
the ids of their files from one counter. A thread that calls several shards counts as a thread of
each of them, since its calls do not nest; the scheduler is one of these threads. -/

namespace Todb.Lsm

/-- A store's own `disk` is the shared manager as the store's last step left it. -/
structure Shards (κ ι : Type) where
  diskManager : DiskManager
  stores : κ → Store ι

namespace Shards

variable {κ ι : Type} [DecidableEq κ] [DecidableEq ι]

def new (blockSize : ℕ) : Shards κ ι := ⟨.new blockSize, fun _ => .new blockSize⟩

/-- A shard's store as its threads find it. -/
def store (self : Shards κ ι) (k : κ) : Store ι := { self.stores k with disk := self.diskManager }

/-- A step inside one shard. -/
def step (opt : κ → LsmTableOption) (self : Shards κ ι) (l : κ × Label ι) : Option (Shards κ ι) :=
  ((self.store l.1).step (opt l.1) l.2).map fun store =>
    { diskManager := store.disk, stores := Function.update self.stores l.1 store }

end Shards

end Todb.Lsm
