import Todb.Library.ByteCodec
import Todb.Model.Wal.Config

/-! # WAL frames and index words

A frame is `len | crc32 | lsn | payload` with a little-endian header. The checksum function
is a parameter. -/

namespace Todb.Wal

open Library

/-- `HEADER_LEN`. -/
def headerLen : ℕ := 16

def frameLen (payload : Bytes) : ℕ := headerLen + payload.length

variable (crc32 : Bytes → UInt32)

def crc32Of (lsn : ℕ) (payload : Bytes) : UInt32 := crc32 (leBytes 8 lsn ++ payload)

def encode (lsn : ℕ) (payload : Bytes) : Bytes :=
  leBytes 4 payload.length ++ leBytes 4 (crc32Of crc32 lsn payload).toNat ++ leBytes 8 lsn ++
    payload

@[simp] theorem length_encode (lsn : ℕ) (payload : Bytes) :
    (encode crc32 lsn payload).length = frameLen payload := by
  simp [encode, frameLen, headerLen]
  omega

/-- A frame that was found: its LSN and its length with the header. -/
structure DecodedFrame where
  lsn : ℕ
  totalLen : ℕ
deriving DecidableEq, Repr

/-- `Ok(None)` if the header or the payload runs past the buffer. -/
def DecodedFrame.decodeAt (buf : Bytes) (offset : ℕ) : Except WalError (Option DecodedFrame) :=
  if offset + headerLen > buf.length then .ok none
  else
    let len := ofLe ((buf.drop offset).take 4)
    let crc := ofLe ((buf.drop (offset + 4)).take 4)
    let lsn := ofLe ((buf.drop (offset + 8)).take 8)
    let frameEnd := offset + headerLen + len
    if frameEnd > buf.length then .ok none
    else if (crc32Of crc32 lsn ((buf.drop (offset + headerLen)).take len)).toNat ≠ crc then
      .error (.crcMismatch lsn offset)
    else .ok (some ⟨lsn, headerLen + len⟩)

/-! ## Slot words -/

/-- `(pos as u64) << 32 | frame_len`. -/
def pack (pos frameLen : ℕ) : ℕ := (pos <<< 32) % 2 ^ 64 ||| frameLen

def unpack (v : ℕ) : ℕ × ℕ := (v >>> 32, v % 2 ^ 32)

/-- The two halves of a slot word do not overlap. -/
theorem unpack_pack {pos len : ℕ} (hpos : pos < 2 ^ 32) (hlen : len < 2 ^ 32) :
    unpack (pack pos len) = (pos, len) := by
  have hshift : (pos <<< 32) % 2 ^ 64 = pos <<< 32 := by
    rw [Nat.shiftLeft_eq]
    exact Nat.mod_eq_of_lt (by omega)
  rw [pack, hshift, ← Nat.shiftLeft_add_eq_or_of_lt hlen, unpack, Nat.shiftRight_eq_div_pow,
    Nat.shiftLeft_eq]
  exact Prod.ext (show (pos * 2 ^ 32 + len) / 2 ^ 32 = pos by omega)
    (show (pos * 2 ^ 32 + len) % 2 ^ 32 = len by omega)

/-! ## Index keys and values -/

def lsnToKey (lsn : ℕ) : Bytes := beBytes 8 lsn

/-- Keys are ordered as LSNs. -/
theorem lsnToKey_lt {m n : ℕ} (hmn : m < n) (hn : n < 2 ^ 64) : lsnToKey m < lsnToKey n :=
  beBytes_lt hmn (by norm_num; omega)

/-- Slicing a key that is too short panics. -/
def keyToLsn (key : Bytes) : Option ℕ :=
  if 8 ≤ key.length then some (ofBe (key.take 8)) else none

theorem keyToLsn_lsnToKey {lsn : ℕ} (hlsn : lsn < 2 ^ 64) : keyToLsn (lsnToKey lsn) = some lsn := by
  rw [keyToLsn, lsnToKey, if_pos (by simp), List.take_of_length_le (by simp),
    ofBe_beBytes_of_lt (by norm_num; omega)]

/-- `offset : u64 ++ len : u32`, little-endian. -/
def encodeOffsetLen (offset len : ℕ) : Bytes := leBytes 8 offset ++ leBytes 4 len

/-- Slicing a value that is too short panics. -/
def decodeOffsetLen (b : Bytes) : Option (ℕ × ℕ) :=
  if 12 ≤ b.length then some (ofLe (b.take 8), ofLe ((b.drop 8).take 4)) else none

theorem decodeOffsetLen_encode {offset len : ℕ} (hoffset : offset < 2 ^ 64) (hlen : len < 2 ^ 32) :
    decodeOffsetLen (encodeOffsetLen offset len) = some (offset, len) := by
  rw [decodeOffsetLen, encodeOffsetLen, if_pos (by simp), List.take_left' (length_leBytes 8 offset),
    List.drop_left' (length_leBytes 8 offset), List.take_of_length_le (by simp),
    ofLe_leBytes_of_lt (by norm_num; omega), ofLe_leBytes_of_lt (by norm_num; omega)]

end Todb.Wal
