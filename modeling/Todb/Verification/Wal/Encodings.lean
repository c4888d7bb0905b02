import Todb.Model.Wal.Threads
import Todb.Verification.Iterators.Memtable
import Todb.Verification.Sst.RoundTrip

/-! # Slot words, length fields and LSN keys

Which positions and lengths the packed words of the WAL can hold, and what the order of its
keys means for the tables that are kept under them. -/

namespace Todb.Wal

open Library

/-! ## Widths -/

/-- The first half of a slot word keeps 32 bits of the position. -/
theorem unpack_pack_fst (pos : ℕ) {len : ℕ} (hlen : len < 2 ^ 32) :
    (unpack (pack pos len)).1 = pos % 2 ^ 32 := by
  have hshift : (pos <<< 32) % 2 ^ 64 = (pos % 2 ^ 32) <<< 32 := by
    rw [Nat.shiftLeft_eq, Nat.shiftLeft_eq, show (2 : ℕ) ^ 64 = 2 ^ 32 * 2 ^ 32 by norm_num,
      Nat.mul_mod_mul_right]
  rw [pack, hshift, ← Nat.shiftLeft_add_eq_or_of_lt hlen, unpack, Nat.shiftRight_eq_div_pow,
    Nat.shiftLeft_eq]
  exact show (pos % 2 ^ 32 * 2 ^ 32 + len) / 2 ^ 32 = pos % 2 ^ 32 by omega

/-- The claimed range of a frame survives the slot word, the frame's length field and the value
that the index records for a buffer at `base`. -/
structure Lossless (pos : ℕ) (payload : Bytes) : Prop where
  word : unpack (pack pos (frameLen payload % 2 ^ 32)) = (pos, frameLen payload)
  lengthField : ∀ (crc32 : Bytes → UInt32) (lsn : ℕ),
    ofLe ((encode crc32 lsn payload).take 4) = payload.length
  recorded : ∀ base, base + pos < 2 ^ 64 →
    decodeOffsetLen (encodeOffsetLen (base + (unpack (pack pos (frameLen payload % 2 ^ 32))).1)
      (unpack (pack pos (frameLen payload % 2 ^ 32))).2) = some (base + pos, frameLen payload)

theorem lengthField_eq (crc32 : Bytes → UInt32) (lsn : ℕ) (payload : Bytes) :
    ofLe ((encode crc32 lsn payload).take 4) = payload.length % 2 ^ 32 := by
  rw [encode, List.append_assoc, List.append_assoc, List.take_left' (length_leBytes 4 _),
    ofLe_leBytes]
  norm_num

theorem lossless_iff (pos : ℕ) (payload : Bytes) :
    Lossless pos payload ↔ pos < 2 ^ 32 ∧ frameLen payload < 2 ^ 32 := by
  have hlen : frameLen payload % 2 ^ 32 < 2 ^ 32 := Nat.mod_lt _ (by norm_num)
  constructor
  · intro h
    have hpos : pos % 2 ^ 32 = pos :=
      (unpack_pack_fst pos hlen).symm.trans (congrArg Prod.fst h.word)
    have hsnd : (unpack (pack pos (frameLen payload % 2 ^ 32))).2 < 2 ^ 32 :=
      Nat.mod_lt _ (by norm_num)
    rw [h.word] at hsnd
    exact ⟨hpos ▸ Nat.mod_lt _ (by norm_num), hsnd⟩
  · rintro ⟨hpos, hframe⟩
    have hword : unpack (pack pos (frameLen payload % 2 ^ 32)) = (pos, frameLen payload) := by
      rw [Nat.mod_eq_of_lt hframe, unpack_pack hpos hframe]
    refine ⟨hword, fun crc32 lsn => ?_, fun base hbase => ?_⟩
    · rw [lengthField_eq]
      exact Nat.mod_eq_of_lt (by unfold frameLen headerLen at hframe; omega)
    · rw [hword]
      exact decodeOffsetLen_encode hbase hframe

/-- A claim is stored without loss exactly if position and length have 32 bits. All claims of a
configuration are exactly if its buffers are smaller than 2 ^ 32 bytes. -/
theorem claim_lossless_iff (cfg : WalConfig) :
    (∀ pos payload, fits cfg pos (frameLen payload) →
      (Lossless pos payload ↔ pos < 2 ^ 32 ∧ frameLen payload < 2 ^ 32)) ∧
    ((∀ pos payload, fits cfg pos (frameLen payload) → Lossless pos payload) ↔
      cfg.bufferSize < 2 ^ 32) := by
  refine ⟨fun pos payload _ => lossless_iff pos payload, fun h => ?_, fun h pos payload hfits => ?_⟩
  · by_contra hlarge
    -- One frame of 2 ^ 32 bytes at the start of the buffer.
    have hlen : frameLen (List.replicate (2 ^ 32 - 16) 0) = 2 ^ 32 := by
      rw [frameLen, headerLen, List.length_replicate]
      norm_num
    have hlossless := h 0 (List.replicate (2 ^ 32 - 16) 0)
      ⟨by rw [hlen]; norm_num, by rw [hlen]; omega⟩
    have := ((lossless_iff _ _).mp hlossless).2
    omega
  · obtain ⟨-, hcap⟩ := hfits
    exact (lossless_iff pos payload).mpr (by unfold frameLen headerLen at *; omega)

/-- Two buffers of 8 GiB. -/
def wideConfig : WalConfig := ⟨2 ^ 34, 2 ^ 33, 512, 2, 1, false⟩

/-- A frame that is claimed at position 2 ^ 32 is recorded at position 0. -/
theorem claim_recorded_elsewhere :
    wideConfig.validate = .ok () ∧ fits wideConfig (2 ^ 32) (frameLen [7]) ∧
      unpack (pack (2 ^ 32) (frameLen [7] % 2 ^ 32)) = (0, frameLen [7]) ∧
      decodeOffsetLen (encodeOffsetLen (unpack (pack (2 ^ 32) (frameLen [7] % 2 ^ 32))).1
        (unpack (pack (2 ^ 32) (frameLen [7] % 2 ^ 32))).2) = some (0, frameLen [7]) := by
  refine ⟨?_, by decide, by decide, by decide⟩
  exact WalConfig.validate_eq_ok.mpr
    ⟨by decide, ⟨9, rfl⟩, ⟨2 ^ 25, rfl⟩, ⟨2 ^ 24, rfl⟩, by decide, by decide, by decide⟩

/-! ## LSN keys -/

theorem lsnToKey_lt_iff (a b : UInt64) : lsnToKey a.toNat < lsnToKey b.toNat ↔ a < b := by
  rw [UInt64.lt_iff_toNat_lt]
  refine ⟨fun hlt => ?_, fun hlt => lsnToKey_lt hlt b.toNat_lt⟩
  rcases lt_trichotomy a.toNat b.toNat with h | heq | h
  · exact h
  · exact absurd (congrArg lsnToKey heq) hlt.ne
  · exact absurd (lsnToKey_lt h a.toNat_lt) hlt.asymm

theorem lsnToKey_le_iff (a b : UInt64) : lsnToKey a.toNat ≤ lsnToKey b.toNat ↔ a ≤ b := by
  rw [← not_lt, lsnToKey_lt_iff, UInt64.not_lt]

theorem lsnToKey_eq_iff (a b : UInt64) : lsnToKey a.toNat = lsnToKey b.toNat ↔ a = b := by
  rw [le_antisymm_iff, lsnToKey_le_iff, lsnToKey_le_iff]
  exact ⟨fun h => UInt64.le_antisymm h.1 h.2, fun h => h ▸ ⟨UInt64.le_refl a, UInt64.le_refl a⟩⟩

/-- Entries under LSN keys. -/
def lsnKeyed {ν : Type} (es : List (UInt64 × ν)) : List (Bytes × ν) :=
  es.map fun e => (lsnToKey e.1.toNat, e.2)

/-- A cursor over entries under LSN keys goes through them by LSN, from the first or from the
smallest LSN that is at least the one sought. -/
structure LsnOrdered {ι : Type} [Cursor ι Bytes (Entry Bytes) Fault] (s : ι)
    (es : List (UInt64 × Entry Bytes)) : Prop where
  ascending : es.Pairwise fun e e' => e.1 < e'.1
  first : ∃ t, Cursor.seekToFirst .forward s = .ok t ∧ Cursor.Yields .forward t (lsnKeyed es)
  seek : ∀ lsn : UInt64, ∃ t, Cursor.seek .forward s (lsnToKey lsn.toNat) = .ok t ∧
    Cursor.Yields .forward t (lsnKeyed (es.filter fun e => lsn ≤ e.1)) ∧
    (Cursor.valid t = true ↔ ∃ e ∈ es, lsn ≤ e.1) ∧
    ∀ found : UInt64, Cursor.key t = .ok (some (lsnToKey found.toNat)) ↔
      IsLeast {l | lsn ≤ l ∧ ∃ e ∈ es, e.1 = l} found

section Ordered

variable {ι : Type} [Cursor ι Bytes (Entry Bytes) Fault] {s : ι}
  {es : List (UInt64 × Entry Bytes)}

theorem ascending_of_lsnKeyed (h : Ascending (lsnKeyed es)) :
    es.Pairwise fun e e' => e.1 < e'.1 :=
  (List.pairwise_map.mp h).imp fun hlt => (lsnToKey_lt_iff _ _).mp hlt

theorem filter_lsnKeyed (lsn : UInt64) :
    ((lsnKeyed es).filter fun e => !Cursor.before .forward (lsnToKey lsn.toNat) e) =
      lsnKeyed (es.filter fun e => lsn ≤ e.1) := by
  rw [lsnKeyed, lsnKeyed, List.filter_map]
  congr 2
  funext e
  rw [Bool.eq_iff_iff]
  simp [Cursor.before, lsnToKey_lt_iff, UInt64.not_lt]

/-- The first of the entries that are not skipped has the smallest LSN. -/
theorem isLeast_head_filter (hasc : es.Pairwise fun e e' => e.1 < e'.1) (lsn found : UInt64) :
    (es.filter fun e => lsn ≤ e.1).head?.map Prod.fst = some found ↔
      IsLeast {l | lsn ≤ l ∧ ∃ e ∈ es, e.1 = l} found := by
  have hmem : ∀ e, e ∈ es.filter (fun e => lsn ≤ e.1) ↔ e ∈ es ∧ lsn ≤ e.1 := by simp
  have hasc' := hasc.filter fun e => lsn ≤ e.1
  generalize es.filter (fun e => lsn ≤ e.1) = rest at hmem hasc'
  constructor
  · intro hhead
    obtain ⟨e, he, rfl⟩ := Option.map_eq_some_iff.mp hhead
    obtain ⟨rest, rfl⟩ := List.head?_eq_some_iff.mp he
    obtain ⟨hin, hle⟩ := (hmem e).mp List.mem_cons_self
    refine ⟨⟨hle, e, hin, rfl⟩, ?_⟩
    rintro l ⟨hl, e', he', rfl⟩
    rcases List.mem_cons.mp ((hmem e').mpr ⟨he', hl⟩) with rfl | hlater
    · exact UInt64.le_refl _
    · exact UInt64.le_of_lt (List.rel_of_pairwise_cons hasc' hlater)
  · rintro ⟨⟨hle, e, hin, rfl⟩, hleast⟩
    have he := (hmem e).mpr ⟨hin, hle⟩
    cases rest with
    | nil => cases he
    | cons e₀ rest =>
        obtain ⟨hin₀, hle₀⟩ := (hmem e₀).mp List.mem_cons_self
        have hfirst : e.1 ≤ e₀.1 := hleast ⟨hle₀, e₀, hin₀, rfl⟩
        rcases List.mem_cons.mp he with rfl | hlater
        · rfl
        · exact absurd (List.rel_of_pairwise_cons hasc' hlater) (UInt64.not_lt.mpr hfirst)

/-- Any cursor that finds its place by the order of the keys. -/
theorem LsnOrdered.of_yields (hasc : Ascending (lsnKeyed es))
    (hfirst : ∃ t, Cursor.seekToFirst .forward s = .ok t ∧
      Cursor.Yields .forward t (lsnKeyed es))
    (hseek : ∀ target, ∃ t, Cursor.seek .forward s target = .ok t ∧
      Cursor.Yields .forward t ((lsnKeyed es).filter fun e => !Cursor.before .forward target e)) :
    LsnOrdered s es where
  ascending := ascending_of_lsnKeyed hasc
  first := hfirst
  seek lsn := by
    obtain ⟨t, ht, hyields⟩ := hseek (lsnToKey lsn.toNat)
    rw [filter_lsnKeyed] at hyields
    obtain ⟨hvalid, hkey, -⟩ := hyields.read
    refine ⟨t, ht, hyields, ?_, fun found => ?_⟩
    · rw [hvalid]
      simp [lsnKeyed]
    · rw [← isLeast_head_filter (ascending_of_lsnKeyed hasc), hkey]
      simp only [lsnKeyed, List.head?_map, Option.map_map, Except.ok.injEq]
      cases (es.filter fun e => lsn ≤ e.1).head? with
      | none => simp
      | some e => simp [lsnToKey_eq_iff]

end Ordered

/-- Keys are ordered as LSNs and determine them. A memtable under LSN keys is gone through by
LSN and searched by LSN, whatever calls came before, and so is an SST by a fresh iterator. -/
theorem lsn_keys_embed :
    (∀ a b : UInt64, (lsnToKey a.toNat < lsnToKey b.toNat ↔ a < b) ∧
      (lsnToKey a.toNat = lsnToKey b.toNat ↔ a = b)) ∧
    (∀ a : UInt64, keyToLsn (lsnToKey a.toNat) = some a.toNat) ∧
    (∀ (it : Lsm.OwnedMemTableIter) (es : List (UInt64 × Entry Bytes)),
      it.map.entries = lsnKeyed es → ∀ history it', Cursor.calls history it = .ok it' →
        LsnOrdered it' es) ∧
    ∀ (ρ : Type) [BlockReader ρ] (reader : ρ) (footer : SstFooter)
      (es : List (UInt64 × Entry Bytes)), WellFormedSst reader footer (lsnKeyed es) →
        ∀ fuel, 2 ≤ fuel → LsnOrdered (SstIter.new fuel reader footer) es := by
  refine ⟨fun a b => ⟨lsnToKey_lt_iff a b, lsnToKey_eq_iff a b⟩,
    fun a => keyToLsn_lsnToKey a.toNat_lt, fun it es hes history it' hcalls => ?_,
    fun ρ _ reader footer es hsst fuel hfuel => ?_⟩
  · have hiterates := it.iterates history it' hcalls .forward
    simp only [show Direction.forward.order it.map.entries = lsnKeyed es from hes] at hiterates
    exact .of_yields (hes ▸ it.map.ascending) hiterates.1 hiterates.2
  · refine .of_yields hsst.ascending (hsst.yields fuel) fun target => ?_
    obtain ⟨t, ht, hyields⟩ := hsst.yields_seek hfuel .forward target
    have hsorted := (Direction.strict_order hsst.ascending .forward).sorted
    exact ⟨t, ht, hsorted.filter_eq_dropWhile target ▸ hyields⟩

/-- Two LSNs whose low bytes are in the other order. -/
def carryEntries : List (UInt64 × Entry Bytes) := [(255, .put [1]), (256, .put [2])]

set_option maxRecDepth 100000 in
theorem lsn_keys_embed_carry :
    LsnOrdered (Lsm.memtableOf (lsnKeyed carryEntries) (by decide)) carryEntries ∧
      ∃ footer writer', buildSst (⟨.new, ⟨128⟩⟩ : DefaultSstWriter InMemoryBlockWriter) ⟨128⟩
          (lsnKeyed carryEntries) = .ok (footer, writer') ∧
        LsnOrdered (SstIter.new 2 (⟨writer'.inner.buf, 128⟩ : InMemoryBlockReader) footer)
          carryEntries := by
  refine ⟨lsn_keys_embed.2.2.1 _ _ rfl [] _ rfl, _, _, rfl, ?_⟩
  refine lsn_keys_embed.2.2.2 _ _ _ _ ?_ 2 le_rfl
  exact buildSst_inMemory (by decide) (by decide) (by decide) rfl

end Todb.Wal
