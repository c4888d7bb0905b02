import Todb.Model.Wal.Meta

/-! # The double write is atomic -/

namespace Todb.Wal.Meta

open Library

variable {crc32 : Bytes → UInt32}

/-! ## Bytes of a header -/

namespace IdxHeader

@[simp] theorem length_serializeFields (self : IdxHeader) : self.serializeFields.length = 32 := by
  simp [serializeFields, self.magic.2]

@[simp] theorem length_serialize (self : IdxHeader) : self.serialize.length = idxHeaderLen := by
  simp [serialize, idxHeaderLen]

variable (crc32) in
/-- The checksum is that of the other fields. -/
def Complete (self : IdxHeader) : Prop := self.headerCrc = crc32 self.serializeFields

theorem complete_new (segId : UInt32) (minLiveLsn maxLiveLsn : UInt64) (entryCount : UInt32) :
    (new crc32 segId minLiveLsn maxLiveLsn entryCount).Complete crc32 := rfl

/-- A complete header is read back from the start of a buffer. -/
theorem deserialize_serialize {self : IdxHeader} (h : self.Complete crc32) (rest : Bytes) :
    deserialize crc32 (self.serialize ++ rest) = some self := by
  obtain ⟨⟨magic, hmagic⟩, version, segId, minLsn, maxLsn, count, crc⟩ := self
  set self : IdxHeader := ⟨⟨magic, hmagic⟩, version, segId, minLsn, maxLsn, count, crc⟩ with hself
  set buf := self.serialize ++ rest with hbuf
  have hsplit : buf = magic ++ (leBytes 4 version.toNat ++ (leBytes 4 segId.toNat ++
      (leBytes 8 minLsn.toNat ++ (leBytes 8 maxLsn.toNat ++ (leBytes 4 count.toNat ++
        (leBytes 4 crc.toNat ++ rest)))))) := by
    simp [hbuf, serialize, serializeFields, hself]
  have hmagicField : buf.take 4 = magic := by
    simpa using cut_eq [] _ _ hsplit rfl hmagic.symm
  have hversion : (buf.drop 4).take 4 = leBytes 4 version.toNat :=
    cut_eq magic _ _ hsplit (by simp [hmagic]) (by simp)
  have hseg : (buf.drop 8).take 4 = leBytes 4 segId.toNat :=
    cut_eq (magic ++ leBytes 4 version.toNat) _ _ (by simpa using hsplit) (by simp [hmagic])
      (by simp)
  have hmin : (buf.drop 12).take 8 = leBytes 8 minLsn.toNat :=
    cut_eq (magic ++ leBytes 4 version.toNat ++ leBytes 4 segId.toNat) _ _
      (by simpa using hsplit) (by simp [hmagic]) (by simp)
  have hmax : (buf.drop 20).take 8 = leBytes 8 maxLsn.toNat :=
    cut_eq (magic ++ leBytes 4 version.toNat ++ leBytes 4 segId.toNat ++ leBytes 8 minLsn.toNat) _ _
      (by simpa using hsplit) (by simp [hmagic]) (by simp)
  have hcount : (buf.drop 28).take 4 = leBytes 4 count.toNat :=
    cut_eq (magic ++ leBytes 4 version.toNat ++ leBytes 4 segId.toNat ++ leBytes 8 minLsn.toNat ++
      leBytes 8 maxLsn.toNat) _ _ (by simpa using hsplit) (by simp [hmagic]) (by simp)
  have hcrc : (buf.drop 32).take 4 = leBytes 4 crc.toNat :=
    cut_eq self.serializeFields _ rest (by simp [hbuf, serialize, hself]) (by simp) (by simp)
  have hfields : buf.take 32 = self.serializeFields := by
    rw [hbuf, serialize, List.append_assoc, List.take_left' (by simp)]
  have hlen : ¬ buf.length < idxHeaderLen := by simp [hbuf]
  have hstored : UInt32.ofNat (ofLe (leBytes 4 crc.toNat)) = crc := by
    rw [ofLe_leBytes_of_lt crc.toNat_lt, UInt32.ofNat_toNat]
  rw [deserialize, dif_neg hlen]
  simp only [hversion, hseg, hmin, hmax, hcount, hcrc, hfields, hmagicField, hstored]
  rw [if_neg (not_not.mpr h.symm), ofLe_leBytes_of_lt version.toNat_lt,
    ofLe_leBytes_of_lt segId.toNat_lt, ofLe_leBytes_of_lt minLsn.toNat_lt,
    ofLe_leBytes_of_lt maxLsn.toNat_lt, ofLe_leBytes_of_lt count.toNat_lt]
  simp [hself]

end IdxHeader

variable (crc32) in
/-- A header whose checksum is right. -/
abbrev CompleteHeader := { header : IdxHeader // header.Complete crc32 }

theorem deserialize_headerBlock (header : CompleteHeader crc32) (blockSize : ℕ) :
    IdxHeader.deserialize crc32 (headerBlock blockSize header) = some header.1 :=
  IdxHeader.deserialize_serialize header.2 _

/-! ## Selection -/

theorem readMetaHeader_of_first {file : ℕ → Bytes} {header : IdxHeader}
    (h : IdxHeader.deserialize crc32 (file 0) = some header) :
    readMetaHeader crc32 file = .ok header := by
  simp [readMetaHeader, selectValidHeader, h]

theorem readMetaHeader_of_second {file : ℕ → Bytes} {header : IdxHeader}
    (hfirst : IdxHeader.deserialize crc32 (file 0) = none)
    (h : IdxHeader.deserialize crc32 (file 1) = some header) :
    readMetaHeader crc32 file = .ok header := by
  simp [readMetaHeader, selectValidHeader, hfirst, h]

/-! ## Crash points -/

/-- A block that fails its checksum. -/
def Torn (crc32 : Bytes → UInt32) (block : Bytes) : Prop :=
  IdxHeader.deserialize crc32 block = none

section Crash

variable {old new : IdxHeader} {block : Bytes} {durable after : ℕ → Bytes}
  {pending : List (ℕ × Bytes)}

/-- Before the first sync only copy A may have changed. -/
theorem readMetaHeader_of_unsynced
    (hcopies : ∀ i < 2, IdxHeader.deserialize crc32 (durable i) = some old)
    (hblock : IdxHeader.deserialize crc32 block = some new)
    (hpending : ∀ w ∈ pending, w = (0, block))
    (hafter : BlockFile.Survives (Torn crc32) ⟨durable, pending⟩ after) :
    readMetaHeader crc32 after = .ok old ∨ readMetaHeader crc32 after = .ok new := by
  have hsecond : after 1 = durable 1 :=
    hafter.eq_of_not_pending fun block h => by cases hpending _ h
  rcases hafter 0 with hold | hwritten | ⟨-, htorn⟩
  · exact .inl (readMetaHeader_of_first (hold ▸ hcopies 0 (by decide)))
  · have hcopy : after 0 = block := (Prod.mk.inj (hpending _ hwritten)).2
    exact .inr (readMetaHeader_of_first (hcopy ▸ hblock))
  · exact .inl (readMetaHeader_of_second htorn (hsecond ▸ hcopies 1 (by decide)))

/-- From the first sync on copy A is the new header. -/
theorem readMetaHeader_of_synced (hblock : IdxHeader.deserialize crc32 block = some new)
    (hfirst : durable 0 = block) (hpending : ∀ w ∈ pending, w.1 ≠ 0)
    (hafter : BlockFile.Survives (Torn crc32) ⟨durable, pending⟩ after) :
    readMetaHeader crc32 after = .ok new := by
  have hcopy : after 0 = block :=
    (hafter.eq_of_not_pending fun block h => hpending _ h rfl).trans hfirst
  exact readMetaHeader_of_first (hcopy ▸ hblock)

end Crash

/-- A crash at any point of the double write leaves the old or the new header, from the first
sync on the new one; without a crash the new header is read back. -/
theorem writeMetaHeaderDouble_atomic (old new : CompleteHeader crc32) (blockSize : ℕ)
    (file : BlockFile Bytes) (hsynced : file.pending = [])
    (hsize : (file.durable 0).length = blockSize)
    (hcopies : ∀ i < 2, IdxHeader.deserialize crc32 (file.durable i) = some old.1) :
    (∀ k after, ((file.run ((writeMetaHeaderDouble blockSize new.1).take k)).Survives
        (Torn crc32) after) →
      (readMetaHeader crc32 after = .ok old.1 ∨ readMetaHeader crc32 after = .ok new.1) ∧
        (2 ≤ k → readMetaHeader crc32 after = .ok new.1)) ∧
    readMetaHeader crc32 (file.run (writeMetaHeaderDouble blockSize new.1)).current = .ok new.1 ∧
    ∀ segId minLiveLsn maxLiveLsn entryCount, IdxHeader.deserialize crc32
      (IdxHeader.new crc32 segId minLiveLsn maxLiveLsn entryCount).serialize =
        some (IdxHeader.new crc32 segId minLiveLsn maxLiveLsn entryCount) := by
  obtain ⟨durable, pending⟩ := file
  obtain rfl : pending = [] := hsynced
  have hfits : idxHeaderLen ≤ blockSize := by
    by_contra hlt
    have hnone : IdxHeader.deserialize crc32 (durable 0) = none := by
      rw [IdxHeader.deserialize, dif_pos (by simp only at hsize; omega)]
    simpa [hnone] using hcopies 0 (by decide)
  have hblock := deserialize_headerBlock new blockSize
  rw [writeMetaHeaderDouble, if_pos hfits]
  generalize headerBlock blockSize new.1 = block at hblock
  refine ⟨?_, ?_, ?_⟩
  · intro k after hafter
    have hcut : 2 ≤ k → readMetaHeader crc32 after = .ok new.1 := by
      intro hk
      obtain ⟨k, rfl⟩ := Nat.exists_eq_add_of_le' hk
      match k, hafter with
      | 0, hafter => exact readMetaHeader_of_synced hblock rfl (by simp) hafter
      | 1, hafter => exact readMetaHeader_of_synced hblock rfl (by simp) hafter
      | k + 2, hafter =>
          rw [List.take_of_length_le (by simp)] at hafter
          exact readMetaHeader_of_synced hblock rfl (by simp) hafter
    match k, hafter, hcut with
    | 0, hafter, hcut => exact ⟨readMetaHeader_of_unsynced hcopies hblock (by simp) hafter, hcut⟩
    | 1, hafter, hcut => exact ⟨readMetaHeader_of_unsynced hcopies hblock (by simp) hafter, hcut⟩
    | k + 2, hafter, hcut => exact ⟨.inr (hcut (by omega)), hcut⟩
  · exact readMetaHeader_of_first hblock
  · intro segId minLiveLsn maxLiveLsn entryCount
    simpa using IdxHeader.deserialize_serialize
      (IdxHeader.complete_new segId minLiveLsn maxLiveLsn entryCount) []

/-- Replacing the header of a new segment, with a checksum that adds up the bytes. -/
theorem writeMetaHeaderDouble_atomic_sum :
    let crc32 : Bytes → UInt32 := fun bytes => UInt32.ofNat (bytes.map UInt8.toNat).sum
    let old : CompleteHeader crc32 := ⟨IdxHeader.new crc32 0 0 0 0, rfl⟩
    let new : CompleteHeader crc32 := ⟨IdxHeader.new crc32 0 0 4 5, rfl⟩
    readMetaHeader crc32 ((⟨fun _ => headerBlock 64 old.1, []⟩ : BlockFile Bytes).run
      (writeMetaHeaderDouble 64 new.1)).current = .ok new.1 :=
  (writeMetaHeaderDouble_atomic _ _ 64 _ rfl rfl fun _ _ => deserialize_headerBlock _ 64).2.1

end Todb.Wal.Meta
