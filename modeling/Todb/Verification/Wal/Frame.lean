import Todb.Model.Wal.Frame

/-! # The frame codec

A frame is found again in any surroundings, a torn one is not found, and a run of frames
followed by zeros is read back frame by frame. -/

namespace Todb.Wal

open Library

variable {crc32 : Bytes → UInt32} {lsn : ℕ} {payload : Bytes}

namespace DecodedFrame

/-- What `decodeAt` makes of a complete header and the bytes after it. -/
theorem decodeAt_header (front rest : Bytes) {len crc : ℕ} (hlen : len < 2 ^ 32)
    (hcrc : crc < 2 ^ 32) (hlsn : lsn < 2 ^ 64) :
    decodeAt crc32 (front ++ (leBytes 4 len ++ leBytes 4 crc ++ leBytes 8 lsn ++ rest))
        front.length =
      if rest.length < len then .ok none
      else if (crc32Of crc32 lsn (rest.take len)).toNat ≠ crc then
        .error (.crcMismatch lsn front.length)
      else .ok (some ⟨lsn, headerLen + len⟩) := by
  generalize hbuf : front ++ (leBytes 4 len ++ leBytes 4 crc ++ leBytes 8 lsn ++ rest) = buf
  have hlength : buf.length = front.length + headerLen + rest.length := by
    simp [← hbuf, headerLen]
    omega
  have hlenField : ofLe ((buf.drop front.length).take 4) = len := by
    rw [cut_eq front (leBytes 4 len) (leBytes 4 crc ++ leBytes 8 lsn ++ rest) (by simp [← hbuf])
      rfl (by simp), ofLe_leBytes_of_lt (by norm_num; omega)]
  have hcrcField : ofLe ((buf.drop (front.length + 4)).take 4) = crc := by
    rw [cut_eq (front ++ leBytes 4 len) (leBytes 4 crc) (leBytes 8 lsn ++ rest) (by simp [← hbuf])
      (by simp) (by simp), ofLe_leBytes_of_lt (by norm_num; omega)]
  have hlsnField : ofLe ((buf.drop (front.length + 8)).take 8) = lsn := by
    rw [cut_eq (front ++ leBytes 4 len ++ leBytes 4 crc) (leBytes 8 lsn) rest (by simp [← hbuf])
      (by simp) (by simp), ofLe_leBytes_of_lt (by norm_num; omega)]
  have hrest : buf.drop (front.length + headerLen) = rest := by
    rw [← hbuf, ← List.append_assoc]
    exact List.drop_left' (by simp [headerLen])
  have hheader : ¬ front.length + headerLen > buf.length := by omega
  have hend : (front.length + headerLen + len > buf.length) ↔ rest.length < len := by omega
  simp only [decodeAt, hlenField, hcrcField, hlsnField, hrest, if_neg hheader, hend]

theorem decodeAt_short {buf : Bytes} {offset : ℕ} (h : buf.length < offset + headerLen) :
    decodeAt crc32 buf offset = .ok none := by
  simp [decodeAt, h]

theorem decodeAt_encode (front back : Bytes) (hlsn : lsn < 2 ^ 64)
    (hpayload : payload.length < 2 ^ 32) :
    decodeAt crc32 (front ++ (encode crc32 lsn payload ++ back)) front.length =
      .ok (some ⟨lsn, headerLen + payload.length⟩) := by
  rw [encode, List.append_assoc _ payload, decodeAt_header front _ hpayload
    (UInt32.toNat_lt _) hlsn]
  simp

/-- A proper part of a frame at the end of a buffer. -/
theorem decodeAt_torn (front : Bytes) {n : ℕ} (hlsn : lsn < 2 ^ 64)
    (hpayload : payload.length < 2 ^ 32) (hn : n < frameLen payload) :
    decodeAt crc32 (front ++ (encode crc32 lsn payload).take n) front.length = .ok none := by
  by_cases hheader : n < headerLen
  · exact decodeAt_short (by simp; omega)
  · have htake : (encode crc32 lsn payload).take n =
        leBytes 4 payload.length ++ leBytes 4 (crc32Of crc32 lsn payload).toNat ++ leBytes 8 lsn ++
          payload.take (n - headerLen) := by
      rw [encode, List.take_append, List.take_of_length_le (by simp [headerLen] at hheader ⊢; omega)]
      simp [headerLen]
    rw [htake, decodeAt_header front _ hpayload (UInt32.toNat_lt _) hlsn, if_pos]
    simp [frameLen] at hn ⊢
    omega

theorem decodeAt_zeros (hzero : crc32 (List.replicate 8 0) ≠ 0) (front : Bytes) (n : ℕ)
    (frame : DecodedFrame) :
    decodeAt crc32 (front ++ List.replicate n 0) front.length ≠ .ok (some frame) := by
  by_cases hheader : n < headerLen
  · rw [decodeAt_short (by simp; omega)]
    simp
  · have hzeros : List.replicate n 0 =
        leBytes 4 0 ++ leBytes 4 0 ++ leBytes 8 0 ++ List.replicate (n - headerLen) (0 : UInt8) := by
      obtain ⟨m, rfl⟩ := Nat.exists_eq_add_of_le (Nat.le_of_not_lt hheader)
      rw [List.replicate_add, Nat.add_sub_cancel_left]
      rfl
    have hcrc : (crc32Of crc32 0 []).toNat ≠ 0 := fun h => hzero (UInt32.toNat_inj.mp h)
    rw [hzeros, decodeAt_header front _ (by norm_num) (by norm_num) (by norm_num),
      if_neg (Nat.not_lt_zero _), List.take_zero, if_pos hcrc]
    exact nofun

/-- Decoding from an offset on and advancing by the length of each frame finds `frames`, and
then none. -/
def Scans (crc32 : Bytes → UInt32) (buf : Bytes) : ℕ → List DecodedFrame → Prop
  | offset, [] => ∀ frame, decodeAt crc32 buf offset ≠ .ok (some frame)
  | offset, frame :: frames =>
      decodeAt crc32 buf offset = .ok (some frame) ∧ Scans crc32 buf (offset + frame.totalLen) frames

end DecodedFrame

/-- The frames of a list of records, one after the other. -/
def encodeAll (crc32 : Bytes → UInt32) (records : List (ℕ × Bytes)) : Bytes :=
  records.flatMap fun r => encode crc32 r.1 r.2

theorem scans_encodeAll (hzero : crc32 (List.replicate 8 0) ≠ 0) (front : Bytes)
    {records : List (ℕ × Bytes)} (n : ℕ)
    (hrecords : ∀ r ∈ records, r.1 < 2 ^ 64 ∧ r.2.length < 2 ^ 32) :
    DecodedFrame.Scans crc32 (front ++ (encodeAll crc32 records ++ List.replicate n 0)) front.length
      (records.map fun r => ⟨r.1, frameLen r.2⟩) := by
  induction records generalizing front with
  | nil => exact fun frame => DecodedFrame.decodeAt_zeros hzero front n frame
  | cons r records ih =>
      obtain ⟨hr, hrest⟩ := List.forall_mem_cons.mp hrecords
      have hsplit : encodeAll crc32 (r :: records) ++ List.replicate n 0 =
          encode crc32 r.1 r.2 ++ (encodeAll crc32 records ++ List.replicate n 0) := by
        simp [encodeAll]
      rw [hsplit]
      refine ⟨DecodedFrame.decodeAt_encode front _ hr.1 hr.2, ?_⟩
      have hnext := ih (front ++ encode crc32 r.1 r.2) hrest
      rwa [List.append_assoc, List.length_append, length_encode] at hnext

/-- Round trip in any surroundings, torn frames, and a run of frames before zeros. -/
theorem frame_codec (crc32 : Bytes → UInt32) (hzero : crc32 (List.replicate 8 0) ≠ 0) :
    (∀ (lsn : ℕ) (payload front back : Bytes), lsn < 2 ^ 64 → payload.length < 2 ^ 32 →
      DecodedFrame.decodeAt crc32 (front ++ encode crc32 lsn payload ++ back) front.length =
          .ok (some ⟨lsn, 16 + payload.length⟩) ∧
        ((front ++ encode crc32 lsn payload ++ back).drop (front.length + 16)).take payload.length =
          payload) ∧
    (∀ (lsn : ℕ) (payload front torn : Bytes), lsn < 2 ^ 64 → payload.length < 2 ^ 32 →
      torn <+: encode crc32 lsn payload → torn ≠ encode crc32 lsn payload →
      DecodedFrame.decodeAt crc32 (front ++ torn) front.length = .ok none) ∧
    ∀ (records : List (ℕ × Bytes)) (n : ℕ),
      (∀ r ∈ records, r.1 < 2 ^ 64 ∧ r.2.length < 2 ^ 32) →
      DecodedFrame.Scans crc32 (encodeAll crc32 records ++ List.replicate n 0) 0
        (records.map fun r => ⟨r.1, 16 + r.2.length⟩) := by
  refine ⟨fun lsn payload front back hlsn hpayload => ⟨?_, ?_⟩, ?_, fun records n hrecords => ?_⟩
  · rw [List.append_assoc]
    exact DecodedFrame.decodeAt_encode front back hlsn hpayload
  · exact cut_eq (front ++ (leBytes 4 payload.length ++
      leBytes 4 (crc32Of crc32 lsn payload).toNat ++ leBytes 8 lsn)) payload back
      (by simp [encode]) (by simp) rfl
  · intro lsn payload front torn hlsn hpayload hprefix hne
    obtain ⟨n, rfl⟩ : ∃ n, torn = (encode crc32 lsn payload).take n :=
      ⟨torn.length, (List.prefix_iff_eq_take.mp hprefix)⟩
    refine DecodedFrame.decodeAt_torn front hlsn hpayload (Nat.lt_of_not_le fun hle => hne ?_)
    exact List.take_of_length_le (by simpa using hle)
  · exact scans_encodeAll hzero [] n hrecords

/-- A frame, a torn frame and a run of two frames, for one checksum function. -/
theorem frame_codec_two :
    DecodedFrame.decodeAt (fun _ => 1) ([9] ++ encode (fun _ => 1) 5 [7, 7] ++ [9]) 1 =
        .ok (some ⟨5, 18⟩) ∧
      DecodedFrame.decodeAt (fun _ => 1) ([9] ++ (encode (fun _ => 1) 5 [7, 7]).take 17) 1 =
        .ok none ∧
      DecodedFrame.Scans (fun _ => 1)
        (encodeAll (fun _ => 1) [(0, [7]), (1, [])] ++ List.replicate 40 0) 0
        [⟨0, 17⟩, ⟨1, 16⟩] := by
  obtain ⟨hround, htorn, hscans⟩ := frame_codec (fun _ => 1) (by decide)
  refine ⟨(hround 5 [7, 7] [9] [9] (by decide) (by decide)).1, ?_, ?_⟩
  · exact htorn 5 [7, 7] [9] _ (by decide) (by decide) (List.take_prefix 17 _) (by decide)
  · exact hscans [(0, [7]), (1, [])] 40 (by decide)

end Todb.Wal
