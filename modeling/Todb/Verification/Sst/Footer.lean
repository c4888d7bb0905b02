import Todb.Model.Lsm.Scan

/-! # Footers

A footer ends with the length of its body, so it is found from the end of whatever it is
appended to, and `decode` accepts what `encode` writes and nothing else of that length. -/

namespace Todb

open Library

/-! ## Decoding footers -/

namespace SstFooter

/-- The footer without its trailer. -/
def body (self : SstFooter) : Bytes :=
  beBytes 8 self.rootIndexBlockPosition.offset.toNat ++ beBytes 4 self.treeHeight.toNat ++
    beBytes 4 self.firstKey.length ++ beBytes 4 self.lastKey.length ++ self.firstKey ++
    self.lastKey

theorem encode_eq (self : SstFooter) : self.encode = self.body ++ beBytes 4 self.body.length :=
  rfl

@[simp] theorem length_body (self : SstFooter) :
    self.body.length = 20 + self.firstKey.length + self.lastKey.length := by
  simp only [body, List.length_append, length_beBytes]

@[simp] theorem length_encode (self : SstFooter) :
    self.encode.length = self.body.length + 4 := by
  rw [encode_eq, List.length_append, length_beBytes]

/-- A body of at least twenty bytes falls into its fields. -/
theorem exists_body_eq {b : Bytes} (hlen : 20 ≤ b.length)
    (hkeys : 20 + ofBe ((b.drop 12).take 4) + ofBe ((b.drop 16).take 4) = b.length) :
    ∃ footer : SstFooter, b = footer.body := by
  set fl := ofBe ((b.drop 12).take 4) with hfl
  refine ⟨⟨⟨UInt64.ofNat (ofBe (b.take 8))⟩, UInt32.ofNat (ofBe ((b.drop 8).take 4)),
    (b.drop 20).take fl, (b.drop 20).drop fl⟩, ?_⟩
  have hroot : beBytes 8 (UInt64.ofNat (ofBe (b.take 8))).toNat = b.take 8 := by
    have hwidth : (b.take 8).length = 8 := by simp; omega
    have hlt : ofBe (b.take 8) < 2 ^ 64 := by simpa [hwidth] using ofBe_lt (b.take 8)
    rw [UInt64.toNat_ofNat', Nat.mod_eq_of_lt hlt, beBytes_ofBe hwidth]
  have hheight : beBytes 4 (UInt32.ofNat (ofBe ((b.drop 8).take 4))).toNat =
      (b.drop 8).take 4 := by
    have hwidth : ((b.drop 8).take 4).length = 4 := by simp; omega
    have hlt : ofBe ((b.drop 8).take 4) < 2 ^ 32 := by
      simpa [hwidth] using ofBe_lt ((b.drop 8).take 4)
    rw [UInt32.toNat_ofNat', Nat.mod_eq_of_lt hlt, beBytes_ofBe hwidth]
  have hfirst : beBytes 4 ((b.drop 20).take fl).length = (b.drop 12).take 4 := by
    have hwidth : ((b.drop 12).take 4).length = 4 := by simp; omega
    have hlen' : ((b.drop 20).take fl).length = fl := by simp; omega
    rw [hlen', hfl, beBytes_ofBe hwidth]
  have hlast : beBytes 4 ((b.drop 20).drop fl).length = (b.drop 16).take 4 := by
    have hwidth : ((b.drop 16).take 4).length = 4 := by simp; omega
    have hlen' : ((b.drop 20).drop fl).length = ofBe ((b.drop 16).take 4) := by
      simp only [List.length_drop]
      omega
    rw [hlen', beBytes_ofBe hwidth]
  have hsplit : ∀ (start width : ℕ), (b.drop start).take width ++ b.drop (start + width) =
      b.drop start := by
    intro start width
    rw [← List.drop_drop, List.take_append_drop]
  rw [body]
  simp only [hroot, hheight, hfirst, hlast, List.append_assoc, List.take_append_drop]
  rw [hsplit 16 4, hsplit 12 4, hsplit 8 4, List.take_append_drop]

section Cut

variable {b trailer : Bytes} (htrailer : trailer.length = 4) (hbody : ofBe trailer = b.length)

include htrailer in
theorem slice_trailer : slice (b ++ trailer) b.length (b.length + 4) = .ok trailer := by
  simpa using slice_append_middle b trailer [] (by simp) (by simp [htrailer])

theorem slice_body (b trailer : Bytes) : slice (b ++ trailer) 0 b.length = .ok b := by
  simpa using slice_append_middle [] b trailer rfl (by simp)

include htrailer hbody

theorem length_lt_of_ofBe : b.length < 2 ^ 32 := by
  simpa [hbody, htrailer] using ofBe_lt trailer

theorem decode_short (hlen : b.length < 20) :
    decode (b ++ trailer) = .error (.err (.invalidValue "footer body too short")) := by
  simp [decode, htrailer, slice_trailer htrailer, hbody, slice_body, bind, Except.bind, hlen,
    throw, throwThe, MonadExceptOf.throw]

/-- The fields that `decode` cuts out of a body of the right length. -/
theorem decode_eq (hlen : 20 ≤ b.length) :
    decode (b ++ trailer) =
      if 20 + ofBe ((b.drop 12).take 4) + ofBe ((b.drop 16).take 4) ≠ b.length then
        .error (.err (.invalidValue "footer key length mismatch"))
      else .ok ⟨⟨UInt64.ofNat (ofBe (b.take 8))⟩, UInt32.ofNat (ofBe ((b.drop 8).take 4)),
        (b.drop 20).take (ofBe ((b.drop 12).take 4)),
        b.drop (20 + ofBe ((b.drop 12).take 4))⟩ := by
  have hfield : ∀ start stop, start ≤ stop → stop ≤ b.length →
      slice b start stop = .ok ((b.drop start).take (stop - start)) :=
    fun start stop h => slice_eq_ok h
  by_cases hkeys : 20 + ofBe ((b.drop 12).take 4) + ofBe ((b.drop 16).take 4) = b.length
  · simp [decode, htrailer, slice_trailer htrailer, hbody, slice_body, bind, Except.bind, pure,
      Except.pure, hkeys, hfield 0 8 (by omega) (by omega), hfield 8 12 (by omega) (by omega),
      hfield 12 16 (by omega) (by omega), hfield 16 20 (by omega) (by omega),
      hfield 20 (20 + ofBe ((b.drop 12).take 4)) (by omega) (by omega),
      hfield (20 + ofBe ((b.drop 12).take 4)) b.length (by omega) le_rfl, Nat.not_lt.mpr hlen]
  · simp [decode, htrailer, slice_trailer htrailer, hbody, slice_body, bind, Except.bind, hkeys,
      hfield 0 8 (by omega) (by omega), hfield 8 12 (by omega) (by omega),
      hfield 12 16 (by omega) (by omega), hfield 16 20 (by omega) (by omega),
      Nat.not_lt.mpr hlen, throw, throwThe, MonadExceptOf.throw]

end Cut

theorem decode_body {footer : SstFooter} {trailer : Bytes} (htrailer : trailer.length = 4)
    (hbody : ofBe trailer = footer.body.length) :
    decode (footer.body ++ trailer) = .ok footer := by
  have hlt := length_lt_of_ofBe htrailer hbody
  rw [length_body] at hlt
  obtain ⟨⟨root⟩, height, first, last⟩ := footer
  set footer : SstFooter := ⟨⟨root⟩, height, first, last⟩ with hfooter
  have hsplit : footer.body = beBytes 8 root.toNat ++ (beBytes 4 height.toNat ++
      (beBytes 4 first.length ++ (beBytes 4 last.length ++ (first ++ last)))) := by
    simp [body, hfooter]
  have hroot : footer.body.take 8 = beBytes 8 root.toNat := by
    simpa using cut_eq [] _ _ hsplit rfl (by simp)
  have hheight : (footer.body.drop 8).take 4 = beBytes 4 height.toNat :=
    cut_eq _ _ _ hsplit (by simp) (by simp)
  have hfirst : (footer.body.drop 12).take 4 = beBytes 4 first.length :=
    cut_eq (beBytes 8 root.toNat ++ beBytes 4 height.toNat) _
      (beBytes 4 last.length ++ (first ++ last)) (by simp [hsplit]) (by simp) (by simp)
  have hlast : (footer.body.drop 16).take 4 = beBytes 4 last.length :=
    cut_eq (beBytes 8 root.toNat ++ beBytes 4 height.toNat ++ beBytes 4 first.length) _
      (first ++ last) (by simp [hsplit]) (by simp) (by simp)
  have hkeys : footer.body.drop 20 = first ++ last := by
    rw [hsplit, ← List.append_assoc, ← List.append_assoc, ← List.append_assoc,
      List.drop_left' (by simp)]
  have hfirstLen : ofBe (beBytes 4 first.length) = first.length :=
    ofBe_beBytes_of_lt (by simp only [hfooter] at hlt; omega)
  have hlastLen : ofBe (beBytes 4 last.length) = last.length :=
    ofBe_beBytes_of_lt (by simp only [hfooter] at hlt; omega)
  rw [decode_eq htrailer hbody (by simp; omega), hroot, hheight, hfirst, hlast, hfirstLen, hlastLen,
    if_neg (by simp [hfooter]), ← List.drop_drop, hkeys, List.take_left, List.drop_left,
    ofBe_beBytes_of_lt root.toNat_lt, ofBe_beBytes_of_lt height.toNat_lt,
    UInt64.ofNat_toNat, UInt32.ofNat_toNat]

/-- What `decode` accepts before a trailer that gives the right length. -/
theorem decode_append {b trailer : Bytes} {footer : SstFooter} (htrailer : trailer.length = 4)
    (hbody : ofBe trailer = b.length) : decode (b ++ trailer) = .ok footer ↔ b = footer.body := by
  constructor
  · intro hdecode
    by_cases hlen : 20 ≤ b.length
    · by_cases hkeys : 20 + ofBe ((b.drop 12).take 4) + ofBe ((b.drop 16).take 4) = b.length
      · obtain ⟨footer', rfl⟩ := exists_body_eq hlen hkeys
        rw [decode_body htrailer hbody] at hdecode
        rw [Except.ok.inj hdecode]
      · rw [decode_eq htrailer hbody hlen, if_pos hkeys] at hdecode
        cases hdecode
    · rw [decode_short htrailer hbody (not_le.mp hlen)] at hdecode
      cases hdecode
  · rintro rfl
    exact decode_body htrailer hbody

theorem body_injective {f g : SstFooter} (h : f.body = g.body) (hlt : f.body.length < 2 ^ 32) :
    f = g := by
  have hlen : ofBe (beBytes 4 f.body.length) = f.body.length := ofBe_beBytes_of_lt hlt
  have hf := decode_body (by simp) hlen
  have hg : decode (g.body ++ beBytes 4 f.body.length) = .ok g :=
    decode_body (by simp) (h ▸ hlen)
  rw [← h, hf] at hg
  exact Except.ok.inj hg

/-! ## Arbitrary bytes -/

/-- The length that the last four bytes give. -/
def bodyLen (buf : Bytes) : ℕ := ofBe (buf.drop (buf.length - 4))

theorem length_drop_trailer {buf : Bytes} (hlen : 4 ≤ buf.length) :
    (buf.drop (buf.length - 4)).length = 4 := by
  rw [List.length_drop]
  omega

theorem slice_drop_trailer {buf : Bytes} :
    slice buf (buf.length - 4) buf.length = .ok (buf.drop (buf.length - 4)) := by
  rw [slice_eq_ok (by omega) le_rfl, List.take_of_length_le (by rw [List.length_drop])]

theorem decode_truncated {buf : Bytes} (hlen : 4 ≤ buf.length)
    (hbody : buf.length < bodyLen buf + 4) :
    decode buf = .error (.err (.invalidValue "footer truncated")) := by
  rw [bodyLen] at hbody
  simp [decode, Nat.not_lt.mpr hlen, slice_drop_trailer, bind, Except.bind, hbody, throw,
    throwThe, MonadExceptOf.throw]

/-- `decode` looks at the last four bytes and at as many leading bytes as they say. -/
theorem decode_take {buf : Bytes} (hlen : 4 ≤ buf.length) (hbody : bodyLen buf + 4 ≤ buf.length) :
    decode buf = decode (buf.take (bodyLen buf) ++ buf.drop (buf.length - 4)) := by
  set b := buf.take (bodyLen buf) with hb
  set trailer := buf.drop (buf.length - 4) with ht
  have htrailer : trailer.length = 4 := length_drop_trailer hlen
  have hcut : b.length = bodyLen buf := by rw [hb, List.length_take]; omega
  have hslice : slice buf 0 (bodyLen buf) = .ok b := by
    rw [slice_eq_ok (Nat.zero_le _) (by omega), List.drop_zero, Nat.sub_zero]
  have hofBe : ofBe trailer = bodyLen buf := rfl
  have hleft : slice (b ++ trailer) (bodyLen buf) (bodyLen buf + 4) = .ok trailer :=
    hcut ▸ slice_trailer htrailer
  have hright : slice (b ++ trailer) 0 (bodyLen buf) = .ok b := hcut ▸ slice_body b trailer
  simp only [decode, slice_drop_trailer, ← ht, List.length_append, htrailer,
    Nat.add_sub_cancel, hleft, hofBe, hslice, hright, bind, Except.bind, hcut,
    Nat.not_lt.mpr hlen, Nat.not_lt.mpr hbody, if_false, Nat.not_lt.mpr le_rfl,
    Nat.not_lt.mpr (Nat.le_add_left 4 _)]

/-- Whatever the bytes, every slice that `decode` takes is in range. -/
theorem decode_total (buf : Bytes) :
    (∃ error, decode buf = .error (.err error)) ∨ ∃ footer, decode buf = .ok footer := by
  by_cases hlen : 4 ≤ buf.length
  · by_cases hbody : bodyLen buf + 4 ≤ buf.length
    · rw [decode_take hlen hbody]
      have htrailer : (buf.drop (buf.length - 4)).length = 4 := length_drop_trailer hlen
      have hcut : ofBe (buf.drop (buf.length - 4)) = (buf.take (bodyLen buf)).length := by
        rw [List.length_take, ← bodyLen]
        omega
      by_cases hshort : (buf.take (bodyLen buf)).length < 20
      · exact .inl ⟨_, decode_short htrailer hcut hshort⟩
      · rw [decode_eq htrailer hcut (Nat.not_lt.mp hshort)]
        split
        · exact .inl ⟨_, rfl⟩
        · exact .inr ⟨_, rfl⟩
    · exact .inl ⟨_, decode_truncated hlen (Nat.not_le.mp hbody)⟩
  · refine .inl ⟨.invalidValue "footer too short for trailer", ?_⟩
    simp [decode, Nat.not_le.mp hlen, bind, Except.bind, throw, throwThe, MonadExceptOf.throw]

theorem decode_encode {footer : SstFooter} (hlt : footer.body.length < 2 ^ 32) :
    decode footer.encode = .ok footer := by
  rw [encode_eq]
  exact decode_body (by simp) (ofBe_beBytes_of_lt hlt)

/-- A buffer that is all body and trailer is accepted only as an encoding. -/
theorem encode_of_decode {buf : Bytes} {footer : SstFooter} (hdecode : decode buf = .ok footer)
    (hlen : buf.length = bodyLen buf + 4) : footer.encode = buf := by
  have htrailer : (buf.drop (buf.length - 4)).length = 4 := length_drop_trailer (by omega)
  have hsplit : buf.take (bodyLen buf) ++ buf.drop (buf.length - 4) = buf := by
    rw [hlen, Nat.add_sub_cancel, List.take_append_drop]
  have hcut : ofBe (buf.drop (buf.length - 4)) = (buf.take (bodyLen buf)).length := by
    rw [List.length_take, ← bodyLen]
    omega
  have hbody : buf.take (bodyLen buf) = footer.body :=
    (decode_append htrailer hcut).mp (by rw [hsplit, hdecode])
  have hlast : beBytes 4 footer.body.length = buf.drop (buf.length - 4) := by
    rw [← hbody, ← hcut, beBytes_ofBe htrailer]
  rw [encode_eq, hlast, ← hbody, hsplit]

end SstFooter

namespace Lsm

/-! ## The tail of a file -/

/-- The last bytes of a file that ends with a footer are that footer. -/
theorem DiskManager.open_append {disk : DiskManager} {id : SstId} {content : Bytes}
    {footer : SstFooter} (hfile : disk.files id = some (content ++ footer.encode))
    (hlt : footer.body.length < 2 ^ 32) :
    disk.open id = .ok (⟨content ++ footer.encode, disk.blockSize⟩, footer) := by
  set file := content ++ footer.encode with hfileEq
  have hlen : file.length = content.length + (footer.body.length + 4) := by
    rw [hfileEq, List.length_append, SstFooter.length_encode]
  have htail : ofBe (file.drop (file.length - 4)) = footer.body.length := by
    have hsplit : file = (content ++ footer.body) ++ beBytes 4 footer.body.length := by
      rw [hfileEq, SstFooter.encode_eq, List.append_assoc]
    have hfront : file.length - 4 = (content ++ footer.body).length := by
      rw [hlen, List.length_append]
      omega
    rw [hfront, hsplit, List.drop_left, ofBe_beBytes_of_lt hlt]
  have hfooter : file.drop (file.length - (footer.body.length + 4)) = footer.encode := by
    rw [hlen, Nat.add_sub_cancel, hfileEq, List.drop_left]
  simp only [DiskManager.open, hfile, htail, hfooter, SstFooter.decode_encode hlt,
    if_neg (show ¬file.length < 4 by omega),
    if_neg (show ¬file.length < footer.body.length + 4 by omega)]
  rfl

/-- The codec of footers: what is written is read back, alone and at the end of any file; no
bytes make `decode` slice out of range; and what it accepts in full is an encoding. -/
theorem footer_codec :
    (∀ footer : SstFooter, 20 + footer.firstKey.length + footer.lastKey.length < 2 ^ 32 →
      SstFooter.decode footer.encode = .ok footer ∧
      ∀ (disk : DiskManager) (id : SstId) (content : Bytes),
        disk.files id = some (content ++ footer.encode) →
        disk.open id = .ok (⟨content ++ footer.encode, disk.blockSize⟩, footer)) ∧
    (∀ buf : Bytes, (∃ error, SstFooter.decode buf = .error (.err error)) ∨
      ∃ footer, SstFooter.decode buf = .ok footer) ∧
    ∀ (buf : Bytes) (footer : SstFooter), SstFooter.decode buf = .ok footer →
      buf.length = SstFooter.bodyLen buf + 4 → footer.encode = buf := by
  refine ⟨fun footer hlt => ⟨?_, ?_⟩, fun buf => ?_, fun buf footer hdecode hlen => ?_⟩
  · exact SstFooter.decode_encode (by rwa [SstFooter.length_body])
  · intro disk id content hfile
    exact DiskManager.open_append hfile (by rwa [SstFooter.length_body])
  · exact SstFooter.decode_total buf
  · exact SstFooter.encode_of_decode hdecode hlen

end Lsm

end Todb
