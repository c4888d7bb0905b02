import Todb.Library.Machine
import Todb.Library.Spans
import Todb.Model.Wal.Threads

/-! # Claims on one buffer

Writers claim a range of bytes and then a slot, each by one atomic addition, in any
interleaving. A claim that does not fit advances the position too, so that none fits after
it. -/

namespace Todb.Wal

open Library

/-! ## Writers between two resets -/

/-- A buffer with the writers that have claimed bytes and not yet a slot. The ranges and slots
that were handed out are ghosts, as is the failed assertion. -/
structure ClaimState (ι : Type) where
  buf : WalBuffer
  pending : List ι
  ranges : List (ℕ × ℕ)
  slots : List ℕ
  panicked : Bool

inductive ClaimLabel (ι : Type)
  | bytes (writer : ι) (frameLen : ℕ)
  | slot (writer : ι)
deriving DecidableEq

/-- The bytes a step asks for. -/
def ClaimLabel.len {ι : Type} : ClaimLabel ι → ℕ
  | bytes _ frameLen => frameLen
  | slot _ => 0

namespace ClaimState

variable {ι : Type} [DecidableEq ι] {capacity : ℕ}

def start (buf : WalBuffer) : ClaimState ι := ⟨buf, [], [], [], false⟩

/-- A writer whose claim fails is free to claim again, one whose claim succeeds takes a slot. -/
def step (capacity : ℕ) (self : ClaimState ι) : ClaimLabel ι → Option (ClaimState ι)
  | .bytes writer frameLen =>
      if writer ∈ self.pending then none
      else
        match self.buf.claimBufferRange capacity frameLen with
        | (some pos, buf) =>
            some { self with
              buf
              pending := writer :: self.pending
              ranges := self.ranges ++ [(pos, frameLen)] }
        | (none, buf) => some { self with buf }
  | .slot writer =>
      if writer ∈ self.pending then
        let self := { self with pending := self.pending.erase writer }
        match self.buf.claimSlot capacity with
        | (.ok slot, buf) => some { self with buf, slots := self.slots ++ [slot] }
        | (.error _, buf) => some { self with buf, panicked := true }
      else none

/-- After claims of `total` bytes: the position is at the total, the ranges lie one behind the
other up to the end of the last claim that fitted, and every range has a slot or a writer that
is about to take one. -/
structure Accounted (capacity total : ℕ) (s : ClaimState ι) : Prop where
  writePos_eq : s.buf.writePos = total
  tiled : ∃ e, Follows 0 s.ranges e ∧ e ≤ capacity ∧ (e = total ∨ e ≤ total ∧ capacity < total)
  headers : ∀ r ∈ s.ranges, headerLen ≤ r.2
  allocated_eq : s.buf.entriesAllocated = s.slots.length
  counted : s.slots.length + s.pending.length = s.ranges.length
  slots_eq : s.slots = List.range s.slots.length
  unpanicked : s.panicked = false

variable {total : ℕ} {s s' : ClaimState ι} {buf : WalBuffer}

omit [DecidableEq ι] in
theorem Accounted.start (hpos : buf.writePos = 0) (halloc : buf.entriesAllocated = 0) :
    (start buf : ClaimState ι).Accounted capacity 0 where
  writePos_eq := hpos
  tiled := ⟨0, rfl, Nat.zero_le capacity, .inl rfl⟩
  headers r hr := by cases hr
  allocated_eq := halloc
  counted := rfl
  slots_eq := rfl
  unpanicked := rfl

/-- Ranges of 16 bytes and more. -/
theorem headers_le_sum {rs : List (ℕ × ℕ)} (h : ∀ r ∈ rs, headerLen ≤ r.2) :
    headerLen * rs.length ≤ (rs.map Prod.snd).sum := by
  induction rs with
  | nil => simp
  | cons r rs ih =>
      obtain ⟨hhead, htail⟩ := List.forall_mem_cons.mp h
      have := ih htail
      rw [List.length_cons, List.map_cons, List.sum_cons, Nat.mul_succ]
      omega

omit [DecidableEq ι] in
/-- There are not more ranges than slots. -/
theorem Accounted.ranges_le (h : s.Accounted capacity total) :
    s.ranges.length ≤ capacity / headerLen ∧ headerLen * s.ranges.length ≤ total := by
  obtain ⟨e, hfollows, hcap, htotal⟩ := h.tiled
  have hsum := hfollows.sum_eq
  have hheaders := headers_le_sum h.headers
  refine ⟨?_, by omega⟩
  rw [Nat.le_div_iff_mul_le (by decide), Nat.mul_comm]
  omega

theorem Accounted.bytes {writer : ι} {len : ℕ} (h : s.Accounted capacity total)
    (hlen : headerLen ≤ len) (hbound : total + len < 2 ^ 64)
    (hstep : s.step capacity (.bytes writer len) = some s') :
    s'.Accounted capacity (total + len) := by
  have hnext : (s.buf.writePos + len) % 2 ^ 64 = total + len := by
    rw [h.writePos_eq, Nat.mod_eq_of_lt hbound]
  obtain ⟨e, hfollows, hcap, htotal⟩ := h.tiled
  simp only [step, WalBuffer.claimBufferRange] at hstep
  split at hstep
  · cases hstep
  · by_cases hfits : s.buf.writePos + len < 2 ^ 64 ∧ s.buf.writePos + len ≤ capacity
    · rw [if_pos hfits] at hstep
      obtain rfl := Option.some.inj hstep
      rw [h.writePos_eq] at hfits
      -- The claim fits, so all claims before it did.
      obtain rfl : e = total := by omega
      exact {
        writePos_eq := hnext
        tiled := by
          refine ⟨e + len, ?_, hfits.2, .inl rfl⟩
          exact hfollows.concat (f := (s.buf.writePos, len)) h.writePos_eq
        headers := by
          intro r hr
          rcases List.mem_append.mp hr with hr | hr
          · exact h.headers r hr
          · obtain rfl := List.mem_singleton.mp hr
            exact hlen
        allocated_eq := h.allocated_eq
        counted := by
          have := h.counted
          simp only [List.length_cons, List.length_append, List.length_nil]
          omega
        slots_eq := h.slots_eq
        unpanicked := h.unpanicked }
    · rw [if_neg hfits] at hstep
      obtain rfl := Option.some.inj hstep
      rw [h.writePos_eq] at hfits
      exact {
        writePos_eq := hnext
        tiled := ⟨e, hfollows, hcap, .inr ⟨by omega, by omega⟩⟩
        headers := h.headers
        allocated_eq := h.allocated_eq
        counted := h.counted
        slots_eq := h.slots_eq
        unpanicked := h.unpanicked }

/-- A writer that takes a slot has a range without one, so there is a slot left. -/
theorem Accounted.slot {writer : ι} (h : s.Accounted capacity total) (hbound : total < 2 ^ 64)
    (hstep : s.step capacity (.slot writer) = some s') : s'.Accounted capacity total := by
  simp only [step, WalBuffer.claimSlot] at hstep
  split at hstep
  · rename_i hpending
    have hlength := List.length_erase_of_mem hpending
    have hpos : 0 < s.pending.length := List.length_pos_of_mem hpending
    have hcounted := h.counted
    obtain ⟨hcapacity, htotal⟩ := h.ranges_le
    have hslot : s.buf.entriesAllocated < capacity / headerLen := by
      rw [h.allocated_eq]
      omega
    rw [if_pos hslot] at hstep
    obtain rfl := Option.some.inj hstep
    exact {
      writePos_eq := h.writePos_eq
      tiled := h.tiled
      headers := h.headers
      allocated_eq := by
        simp only [List.length_append, List.length_cons, List.length_nil, h.allocated_eq]
        refine Nat.mod_eq_of_lt ?_
        unfold headerLen at htotal
        omega
      counted := by
        simp only [List.length_append, List.length_cons, List.length_nil]
        omega
      slots_eq := by
        simp only [List.length_append, List.length_cons, List.length_nil]
        rw [List.range_succ, ← h.slots_eq, h.allocated_eq]
      unpanicked := h.unpanicked }
  · cases hstep

theorem Accounted.execute {labels : List (ClaimLabel ι)} (h : s.Accounted capacity total)
    (hlens : ∀ writer len, .bytes writer len ∈ labels → headerLen ≤ len)
    (hbound : total + (labels.map ClaimLabel.len).sum < 2 ^ 64)
    (hexec : execute (step capacity) labels s = some s') :
    s'.Accounted capacity (total + (labels.map ClaimLabel.len).sum) := by
  induction labels generalizing s total with
  | nil => exact Option.some.inj hexec ▸ h
  | cons l labels ih =>
      obtain ⟨mid, hmid, hrest⟩ := Option.bind_eq_some_iff.mp hexec
      rw [List.map_cons, List.sum_cons, ← Nat.add_assoc] at hbound ⊢
      have hlater : ∀ writer len, .bytes writer len ∈ labels → headerLen ≤ len :=
        fun writer len hmem => hlens writer len (List.mem_cons_of_mem _ hmem)
      cases l with
      | bytes writer len =>
          have hlen := hlens writer len List.mem_cons_self
          exact ih (h.bytes hlen (lt_of_le_of_lt (Nat.le_add_right ..) hbound) hmid) hlater hbound
            hrest
      | slot writer =>
          exact ih (h.slot (by simp only [ClaimLabel.len] at hbound; omega) hmid) hlater hbound
            hrest

end ClaimState

/-! ## The buffer -/

variable {ι : Type} [DecidableEq ι]

/-- On a buffer that is new or was reset, whatever the interleaving: the claimed ranges are
disjoint, lie in the buffer and tile the start of it; the slots are 0, 1, 2, …; and there is
always a slot for a claimed range. -/
theorem claims_disjoint (capacity minLsn : ℕ) {buf : WalBuffer}
    (hbuf : (∃ memory, buf = .new memory minLsn) ∨ ∃ old : WalBuffer, buf = old.reset minLsn)
    (labels : List (ClaimLabel ι)) {s : ClaimState ι}
    (hlens : ∀ writer len, .bytes writer len ∈ labels → 16 ≤ len)
    (htotal : (labels.map ClaimLabel.len).sum < 2 ^ 64)
    (hexec : execute (ClaimState.step capacity) labels (.start buf) = some s) :
    s.ranges.Pairwise Apart ∧ (∀ r ∈ s.ranges, r.1 + r.2 ≤ capacity) ∧
      (∃ e ≤ capacity, Follows 0 s.ranges e) ∧ s.slots = List.range s.slots.length ∧
      s.panicked = false := by
  obtain ⟨hpos, halloc⟩ : buf.writePos = 0 ∧ buf.entriesAllocated = 0 := by
    obtain ⟨memory, rfl⟩ | ⟨old, rfl⟩ := hbuf
    · exact ⟨rfl, rfl⟩
    · exact ⟨rfl, rfl⟩
  have hstart : (ClaimState.start buf : ClaimState ι).Accounted capacity 0 := .start hpos halloc
  have hend := hstart.execute hlens (by simpa using htotal) hexec
  obtain ⟨e, hfollows, hcap, -⟩ := hend.tiled
  exact ⟨hfollows.apart, fun r hr => (hfollows.inside r hr).2.trans hcap, ⟨e, hcap, hfollows⟩,
    hend.slots_eq, hend.unpanicked⟩

/-- Two writers whose slots are in the other order than their bytes, and a claim that fails. -/
theorem claims_disjoint_crossed :
    ∃ s, execute (ClaimState.step 64)
        [.bytes 0 16, .bytes 1 20, .slot 1, .bytes 1 40, .slot (0 : Fin 2)]
        (.start (.new (fun _ => 0) 7)) = some s ∧
      s.ranges = [(0, 16), (16, 20)] ∧ s.slots = [0, 1] ∧ s.panicked = false := by
  refine ⟨_, rfl, rfl, rfl, ?_⟩
  refine (claims_disjoint 64 7 (.inl ⟨fun _ => 0, rfl⟩)
    [.bytes 0 16, .bytes 1 20, .slot 1, .bytes 1 40, .slot (0 : Fin 2)] ?_ (by decide)
    rfl).2.2.2.2
  simp

/-! ## The calls of `append` -/

/-- `append` claims its bytes as `claim_buffer_range` does. -/
theorem stepAppend_claimBytes (cfg : WalConfig) (sh : Shared) (payload : Bytes) (buf : BufId) :
    stepAppend cfg sh payload (.claimBytes buf) =
      (sh.modify buf fun b => (b.claimBufferRange cfg.bufferSize (frameLen payload)).2,
        match ((sh.buffers buf).claimBufferRange cfg.bufferSize (frameLen payload)).1 with
        | some pos => .claimed ⟨buf, pos, payload⟩
        | none => .swap (.append payload) buf .cas) := by
  by_cases hfits : fits cfg (sh.buffers buf).writePos (frameLen payload)
  · simp only [stepAppend, WalBuffer.claimBufferRange, if_pos hfits]
    rw [if_pos (show _ ∧ _ from hfits)]
    rfl
  · simp only [stepAppend, WalBuffer.claimBufferRange, if_neg hfits]
    rw [if_neg (show ¬(_ ∧ _) from hfits)]
    rfl

theorem stepClaimed_claimSlot (cfg : WalConfig) (sh : Shared) (claim : Claim) :
    stepClaimed cfg sh claim =
      let sh' := sh.modify claim.buf fun b => (b.claimSlot cfg.bufferSize).2
      match ((sh.buffers claim.buf).claimSlot cfg.bufferSize).1 with
      | .ok slot =>
          ({ sh' with issued := sh'.issued ++ [⟨claim.buf, slot, claim.pos, claim.payload⟩] },
            .holding ⟨claim, slot, sh'.issued.length⟩ .loadMinLsn)
      | .error _ => (sh', .panicked) := by
  by_cases hslot : (sh.buffers claim.buf).entriesAllocated < cfg.bufferSize / headerLen
  · simp only [stepClaimed, WalBuffer.claimSlot, if_pos hslot]
    rfl
  · simp only [stepClaimed, WalBuffer.claimSlot, if_neg hslot]
    rfl

end Todb.Wal
