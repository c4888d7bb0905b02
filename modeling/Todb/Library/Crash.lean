import Mathlib.Data.List.Basic
import Mathlib.Logic.Function.Basic
import Mathlib.Tactic

/-! # Files on a disk that may crash

A file is a sequence of blocks. Writes take effect at once for readers, but a crash before
the next sync may lose, keep or tear each of them. -/

namespace Todb.Library

variable {φ β : Type*}

inductive FileOp (β : Type*)
  | write (i : ℕ) (block : β)
  | sync
deriving DecidableEq, Repr

/-- The blocks at the last sync, and the writes since then, oldest first. -/
structure BlockFile (β : Type*) where
  durable : ℕ → β
  pending : List (ℕ × β)

namespace BlockFile

/-- What a reader finds while there is no crash. -/
def current (self : BlockFile β) : ℕ → β :=
  self.pending.foldl (fun blocks w => Function.update blocks w.1 w.2) self.durable

def apply (self : BlockFile β) : FileOp β → BlockFile β
  | .write i block => { self with pending := self.pending ++ [(i, block)] }
  | .sync => ⟨self.current, []⟩

def run (ops : List (FileOp β)) (self : BlockFile β) : BlockFile β := ops.foldl apply self

/-- After a crash every block is as at the last sync, or as a later write left it, or, if
there was a later write, torn. -/
def Survives (torn : β → Prop) (self : BlockFile β) (after : ℕ → β) : Prop :=
  ∀ i, after i = self.durable i ∨ (i, after i) ∈ self.pending ∨
    (∃ block, (i, block) ∈ self.pending) ∧ torn (after i)

@[simp] theorem run_nil (self : BlockFile β) : run [] self = self := rfl

@[simp] theorem run_cons (op : FileOp β) (ops : List (FileOp β)) (self : BlockFile β) :
    run (op :: ops) self = run ops (self.apply op) := rfl

theorem run_append (ops more : List (FileOp β)) (self : BlockFile β) :
    run (ops ++ more) self = run more (run ops self) := List.foldl_append

@[simp] theorem apply_sync (self : BlockFile β) : self.apply .sync = ⟨self.current, []⟩ := rfl

@[simp] theorem current_nil (durable : ℕ → β) : current ⟨durable, []⟩ = durable := rfl

theorem current_apply_write (self : BlockFile β) (i : ℕ) (block : β) :
    (self.apply (.write i block)).current = Function.update self.current i block := by
  simp [apply, current]

variable {torn : β → Prop} {self : BlockFile β} {after : ℕ → β}

/-- A crash changes nothing of a synced file. -/
theorem Survives.eq_durable (h : Survives torn self after) (hsynced : self.pending = []) :
    after = self.durable := by
  funext i
  simpa [hsynced] using h i

/-- A block without a write since the last sync survives. -/
theorem Survives.eq_of_not_pending (h : Survives torn self after) {i : ℕ}
    (hi : ∀ block, (i, block) ∉ self.pending) : after i = self.durable i := by
  rcases h i with h | h | ⟨⟨block, h⟩, -⟩
  · exact h
  · exact absurd h (hi _)
  · exact absurd h (hi _)

/-- A file all of whose blocks have a property, written since the last sync or before. -/
def All (P : β → Prop) (self : BlockFile β) : Prop :=
  (∀ i, P (self.durable i)) ∧ ∀ w ∈ self.pending, P w.2

theorem All.current {P : β → Prop} (h : self.All P) (i : ℕ) : P (self.current i) := by
  obtain ⟨durable, pending⟩ := self
  obtain ⟨hdurable, hpending⟩ := h
  induction pending generalizing durable with
  | nil => exact hdurable i
  | cons w pending ih =>
      obtain ⟨hw, hrest⟩ := List.forall_mem_cons.mp hpending
      refine ih (Function.update durable w.1 w.2) (fun j => ?_) hrest
      by_cases hj : j = w.1
      · subst hj
        simpa using hw
      · simpa [Function.update_of_ne hj] using hdurable j

/-- Operations that write blocks with the property keep it. -/
theorem All.run {P : β → Prop} (h : self.All P) {ops : List (FileOp β)}
    (hops : ∀ i block, FileOp.write i block ∈ ops → P block) : (self.run ops).All P := by
  induction ops generalizing self with
  | nil => exact h
  | cons op ops ih =>
      refine ih ?_ fun i block hmem => hops i block (List.mem_cons_of_mem _ hmem)
      cases op with
      | write i block =>
          refine ⟨h.1, fun w hw => ?_⟩
          rcases List.mem_append.mp hw with hw | hw
          · exact h.2 w hw
          · rw [List.mem_singleton.mp hw]
            exact hops i block List.mem_cons_self
      | sync => exact ⟨h.current, by simp⟩

/-- A crash keeps a property that torn blocks have. -/
theorem All.survives {P : β → Prop} (h : self.All P) (htorn : ∀ block, torn block → P block)
    (hafter : Survives torn self after) (i : ℕ) : P (after i) := by
  rcases hafter i with hold | hwritten | ⟨-, ht⟩
  · exact hold ▸ h.1 i
  · exact h.2 _ hwritten
  · exact htorn _ ht

/-! ## Consecutive blocks -/

/-- Writes of consecutive blocks. -/
def writes : ℕ → List β → List (FileOp β)
  | _, [] => []
  | first, block :: blocks => .write first block :: writes (first + 1) blocks

/-- The file with some consecutive blocks replaced. -/
def overlay (first : ℕ) (blocks : List β) (file : ℕ → β) (i : ℕ) : β :=
  if first ≤ i then (blocks[i - first]?).getD (file i) else file i

@[simp] theorem overlay_nil (first : ℕ) (file : ℕ → β) : overlay first [] file = file := by
  funext i
  simp [overlay]

theorem overlay_of_lt {first i : ℕ} (h : i < first) (blocks : List β) (file : ℕ → β) :
    overlay first blocks file i = file i := if_neg (not_le.mpr h)

theorem overlay_add {first i : ℕ} {blocks : List β} {block : β} (h : blocks[i]? = some block)
    (file : ℕ → β) : overlay first blocks file (first + i) = block := by
  simp [overlay, h]

theorem overlay_cons (first : ℕ) (block : β) (blocks : List β) (file : ℕ → β) :
    overlay first (block :: blocks) file =
      overlay (first + 1) blocks (Function.update file first block) := by
  funext i
  rcases Nat.lt_trichotomy i first with hlt | rfl | hgt
  · rw [overlay_of_lt hlt, overlay_of_lt (by omega), Function.update_of_ne (by omega)]
  · rw [overlay_of_lt (Nat.lt_succ_self i), Function.update_self]
    simp [overlay]
  · obtain ⟨j, rfl⟩ := Nat.exists_eq_add_of_lt hgt
    have hj : first + j + 1 - first = j + 1 := by omega
    have hj' : first + j + 1 - (first + 1) = j := by omega
    simp only [overlay]
    rw [if_pos (by omega), if_pos (by omega), hj, hj', List.getElem?_cons_succ,
      Function.update_of_ne (by omega)]

theorem current_run_writes (first : ℕ) (blocks : List β) (self : BlockFile β) :
    (self.run (writes first blocks)).current = overlay first blocks self.current := by
  induction blocks generalizing first self with
  | nil => simp [writes]
  | cons block blocks ih => rw [writes, run_cons, ih, current_apply_write, overlay_cons]

theorem run_writes_sync (first : ℕ) (blocks : List β) (self : BlockFile β) :
    self.run (writes first blocks ++ [.sync]) = ⟨overlay first blocks self.current, []⟩ := by
  rw [run_append, run_cons, run_nil, apply_sync, current_run_writes]


end BlockFile

/-! ## Several files -/

namespace Disk

variable [DecidableEq φ]

/-- Operations on a disk, in the order they are issued. -/
def run (ops : List (φ × FileOp β)) (disk : φ → BlockFile β) : φ → BlockFile β :=
  ops.foldl (fun disk op => Function.update disk op.1 ((disk op.1).apply op.2)) disk

/-- The operations on one file. -/
def opsOf (file : φ) (ops : List (φ × FileOp β)) : List (FileOp β) :=
  (ops.filter (·.1 = file)).map Prod.snd

/-- Every file after a crash. -/
def Survives (torn : φ → β → Prop) (disk : φ → BlockFile β) (after : φ → ℕ → β) : Prop :=
  ∀ file, (disk file).Survives (torn file) (after file)

@[simp] theorem opsOf_append (file : φ) (ops more : List (φ × FileOp β)) :
    opsOf file (ops ++ more) = opsOf file ops ++ opsOf file more := by
  simp [opsOf]

/-- Operations on one file. -/
def on (file : φ) (ops : List (FileOp β)) : List (φ × FileOp β) := ops.map (file, ·)

@[simp] theorem opsOf_on_self (file : φ) (ops : List (FileOp β)) :
    opsOf file (on file ops) = ops := by
  simp [opsOf, on, List.filter_map, Function.comp_def]

theorem opsOf_on_of_ne {file other : φ} (h : other ≠ file) (ops : List (FileOp β)) :
    opsOf file (on other ops) = [] := by
  simp [opsOf, on, List.filter_map, Function.comp_def, h]

/-- The files do not see each other's operations. -/
theorem run_apply (ops : List (φ × FileOp β)) (disk : φ → BlockFile β) (file : φ) :
    run ops disk file = (disk file).run (opsOf file ops) := by
  induction ops generalizing disk with
  | nil => rfl
  | cons op ops ih =>
      rw [run, List.foldl_cons, ← run, ih]
      by_cases h : op.1 = file
      · subst h
        simp [opsOf]
      · rw [Function.update_of_ne (Ne.symm h)]
        simp [opsOf, h]

theorem mem_opsOf {file : φ} {ops : List (φ × FileOp β)} {op : FileOp β} :
    op ∈ opsOf file ops ↔ (file, op) ∈ ops := by
  simp only [opsOf, List.mem_map, List.mem_filter, decide_eq_true_eq, Prod.exists]
  constructor
  · rintro ⟨file', op', ⟨hmem, rfl⟩, rfl⟩
    exact hmem
  · intro hmem
    exact ⟨file, op, ⟨hmem, rfl⟩, rfl⟩

end Disk

end Todb.Library
