import Mathlib

/-! # WAL configuration -/

namespace Todb.Wal

inductive WalError
  | io (msg : String)
  | crcMismatch (lsn offset : ℕ)
  | headerCorrupt (segId : ℕ)
  | invalidConfig (msg : String)
  | closed
deriving DecidableEq, Repr

/-- All sizes are byte counts. -/
structure WalConfig where
  segmentSize : ℕ
  bufferSize : ℕ
  blockSize : ℕ
  bufferCount : ℕ
  readCacheBlocks : ℕ
  oDirect : Bool
deriving DecidableEq, Repr

/-- A rule of `validate` with the message of its violation. -/
def require (rule : Prop) [Decidable rule] (msg : String) : Except WalError Unit :=
  if rule then .ok () else .error (.invalidConfig msg)

@[simp] theorem require_eq_ok {rule : Prop} [Decidable rule] {msg : String} :
    require rule msg = .ok () ↔ rule := by
  by_cases h : rule <;> simp [require, h]

namespace WalConfig

def misaligned (self : WalConfig) (v : ℕ) (what : String) : Except WalError Unit :=
  require (self.blockSize ∣ v)
    (what ++ s!" ({v}) must be a multiple of block_size ({self.blockSize})")

def validate (self : WalConfig) : Except WalError Unit := do
  require (512 ≤ self.blockSize ∧ self.blockSize.isPowerOfTwo)
    s!"block_size must be a power of two >= 512 (got {self.blockSize})"
  self.misaligned self.segmentSize "segment_size"
  self.misaligned self.bufferSize "buffer_size"
  require (self.bufferSize < self.segmentSize)
    s!"buffer_size ({self.bufferSize}) must be < segment_size ({self.segmentSize})"
  require (2 ≤ self.bufferCount) s!"buffer_count must be >= 2 (got {self.bufferCount})"
  require (0 < self.readCacheBlocks)
    "read_cache_blocks must be >= 1 (empty pool has no victim and no unpinner → deadlock)"

/-- What a validated configuration guarantees. -/
structure Valid (cfg : WalConfig) : Prop where
  blockSize_ge : 512 ≤ cfg.blockSize
  blockSize_pow : cfg.blockSize.isPowerOfTwo
  segmentSize_dvd : cfg.blockSize ∣ cfg.segmentSize
  bufferSize_dvd : cfg.blockSize ∣ cfg.bufferSize
  bufferSize_lt : cfg.bufferSize < cfg.segmentSize
  bufferCount_ge : 2 ≤ cfg.bufferCount
  readCacheBlocks_pos : 0 < cfg.readCacheBlocks

theorem unit_bind_eq_ok {x y : Except WalError Unit} :
    (x >>= fun _ => y) = .ok () ↔ x = .ok () ∧ y = .ok () := by
  cases x <;> simp [bind, Except.bind]

theorem validate_eq_ok {self : WalConfig} : self.validate = .ok () ↔ self.Valid := by
  simp only [validate, misaligned, unit_bind_eq_ok, require_eq_ok]
  constructor
  · rintro ⟨⟨hge, hpow⟩, hseg, hbuf, hlt, hcount, hcache⟩
    exact ⟨hge, hpow, hseg, hbuf, hlt, hcount, hcache⟩
  · rintro ⟨hge, hpow, hseg, hbuf, hlt, hcount, hcache⟩
    exact ⟨⟨hge, hpow⟩, hseg, hbuf, hlt, hcount, hcache⟩

end WalConfig

/-- `align_up` on 64-bit words: `(v + align - 1) & !(align - 1)`. -/
def alignUp (v align : ℕ) : ℕ := (v + align - 1) &&& (2 ^ 64 - align)

/-- Alignment to a power of two rounds up to the next multiple. -/
theorem alignUp_eq {v k : ℕ} (hk : k ≤ 64) (hv : v + 2 ^ k ≤ 2 ^ 64) :
    alignUp v (2 ^ k) = (v + 2 ^ k - 1) / 2 ^ k * 2 ^ k := by
  have hpos : 0 < 2 ^ k := Nat.two_pow_pos k
  have hmask : 2 ^ 64 - 2 ^ k = (2 ^ (64 - k) - 1) * 2 ^ k := by
    rw [Nat.sub_mul, ← pow_add, Nat.sub_add_cancel hk, one_mul]
  have hquot : (v + 2 ^ k - 1) / 2 ^ k < 2 ^ (64 - k) := by
    rw [Nat.div_lt_iff_lt_mul hpos, ← pow_add, Nat.sub_add_cancel hk]
    omega
  refine Nat.eq_of_testBit_eq fun i => ?_
  rw [alignUp, hmask, Nat.testBit_and, Nat.testBit_mul_two_pow, Nat.testBit_mul_two_pow,
    Nat.testBit_two_pow_sub_one, Nat.testBit_div_two_pow]
  by_cases hi : k ≤ i
  · by_cases hlt : i - k < 64 - k
    · simp [hi, hlt]
    · have hfalse : (v + 2 ^ k - 1).testBit i = false := by
        refine Nat.testBit_lt_two_pow (lt_of_lt_of_le (show v + 2 ^ k - 1 < 2 ^ 64 by omega) ?_)
        exact Nat.pow_le_pow_right (by omega) (by omega)
      simp [hi, hlt, hfalse]
  · simp [hi]

theorem le_alignUp {v k : ℕ} (hk : k ≤ 64) (hv : v + 2 ^ k ≤ 2 ^ 64) : v ≤ alignUp v (2 ^ k) := by
  have hpos : 0 < 2 ^ k := Nat.two_pow_pos k
  rw [alignUp_eq hk hv]
  have := Nat.lt_div_mul_add hpos (a := v + 2 ^ k - 1)
  omega

end Todb.Wal
