import Mathlib.Data.List.Basic
import Mathlib.Algebra.Order.Group.Nat
import Mathlib.Order.Basic
import Mathlib.Data.List.Lex
import Mathlib.Tactic

/-! # Fixed-width integers as byte strings -/

namespace Todb.Library

/-- Byte strings. -/
abbrev Bytes := List UInt8

instance instLinearOrderByte : LinearOrder UInt8 where
  le_refl a := UInt8.le_refl a
  le_trans _ _ _ := UInt8.le_trans
  le_antisymm _ _ := UInt8.le_antisymm
  le_total := UInt8.le_total
  lt_iff_le_not_ge a b := by
    rw [UInt8.lt_iff_toNat_lt, UInt8.le_iff_toNat_le, UInt8.le_iff_toNat_le]
    omega
  toDecidableLE := inferInstance
  toDecidableEq := inferInstance
  toDecidableLT := inferInstance

-- Comparisons of byte strings are decided as in every linear order.
instance (priority := 1100) : DecidableLT Bytes := LinearOrder.toDecidableLT

instance (priority := 1100) : DecidableLE Bytes := LinearOrder.toDecidableLE

/-- The low `width` bytes of `n`, least significant first. -/
def leBytes : ℕ → ℕ → Bytes
  | 0, _ => []
  | width + 1, n => UInt8.ofNat n :: leBytes width (n / 256)

/-- The low `width` bytes of `n`, most significant first. -/
def beBytes (width n : ℕ) : Bytes := (leBytes width n).reverse

/-- The number a little-endian byte string stands for. -/
def ofLe : Bytes → ℕ
  | [] => 0
  | b :: bs => b.toNat + 256 * ofLe bs

/-- The number a big-endian byte string stands for. -/
def ofBe (bs : Bytes) : ℕ := ofLe bs.reverse

@[simp] theorem length_leBytes (width n : ℕ) : (leBytes width n).length = width := by
  induction width generalizing n with
  | zero => rfl
  | succ width ih => simp [leBytes, ih]

@[simp] theorem length_beBytes (width n : ℕ) : (beBytes width n).length = width := by
  simp [beBytes]

theorem ofLe_leBytes (width n : ℕ) : ofLe (leBytes width n) = n % 256 ^ width := by
  induction width generalizing n with
  | zero => simp [leBytes, ofLe, Nat.mod_one]
  | succ width ih =>
      have hbyte : (UInt8.ofNat n).toNat = n % 256 := by simp
      rw [leBytes, ofLe, ih, hbyte, pow_succ, Nat.mul_comm (256 ^ width) 256, Nat.mod_mul]

theorem ofBe_beBytes (width n : ℕ) : ofBe (beBytes width n) = n % 256 ^ width := by
  simp [ofBe, beBytes, ofLe_leBytes]

/-- Decoding undoes encoding for every number the width can hold. -/
theorem ofBe_beBytes_of_lt {width n : ℕ} (h : n < 256 ^ width) :
    ofBe (beBytes width n) = n := by
  rw [ofBe_beBytes, Nat.mod_eq_of_lt h]

theorem ofLe_leBytes_of_lt {width n : ℕ} (h : n < 256 ^ width) :
    ofLe (leBytes width n) = n := by
  rw [ofLe_leBytes, Nat.mod_eq_of_lt h]

/-- Encoding undoes decoding of strings of the full width. -/
theorem leBytes_ofLe {width : ℕ} {bs : Bytes} (h : bs.length = width) :
    leBytes width (ofLe bs) = bs := by
  induction bs generalizing width with
  | nil => subst h; rfl
  | cons b bs ih =>
      subst h
      have hdiv : (b.toNat + 256 * ofLe bs) / 256 = ofLe bs := by
        have := b.toNat_lt
        omega
      have hbyte : UInt8.ofNat (b.toNat + 256 * ofLe bs) = b := by
        apply UInt8.toNat_inj.mp
        simp
      rw [ofLe, List.length_cons, leBytes, hdiv, hbyte, ih rfl]

theorem beBytes_ofBe {width : ℕ} {bs : Bytes} (h : bs.length = width) :
    beBytes width (ofBe bs) = bs := by
  rw [beBytes, ofBe, leBytes_ofLe (by simpa using h), List.reverse_reverse]

theorem ofLe_lt (bs : Bytes) : ofLe bs < 256 ^ bs.length := by
  induction bs with
  | nil => simp [ofLe]
  | cons b bs ih =>
      have hb : b.toNat < 256 := b.toNat_lt
      rw [ofLe, List.length_cons, pow_succ]
      omega

theorem ofBe_lt (bs : Bytes) : ofBe bs < 256 ^ bs.length := by
  simpa [ofBe] using ofLe_lt bs.reverse

/-! ## Order -/

theorem ofLe_append (bs cs : Bytes) : ofLe (bs ++ cs) = ofLe bs + 256 ^ bs.length * ofLe cs := by
  induction bs with
  | nil => simp [ofLe]
  | cons b bs ih =>
      rw [List.cons_append, ofLe, ofLe, ih, List.length_cons, pow_succ]
      ring

theorem ofBe_cons (b : UInt8) (bs : Bytes) :
    ofBe (b :: bs) = ofBe bs + 256 ^ bs.length * b.toNat := by
  simp [ofBe, ofLe_append, ofLe]

/-- Strings of one length are ordered as the numbers they stand for. -/
theorem ofBe_lt_ofBe {bs cs : Bytes} (hlength : bs.length = cs.length) (h : bs < cs) :
    ofBe bs < ofBe cs := by
  induction h with
  | nil => simp at hlength
  | rel hlt =>
      rename_i b bs c cs
      have hlength : bs.length = cs.length := by simpa using hlength
      have hbs := ofBe_lt bs
      have hstep : 256 ^ bs.length * (b.toNat + 1) ≤ 256 ^ bs.length * c.toNat :=
        Nat.mul_le_mul_left _ (UInt8.lt_iff_toNat_lt.mp hlt)
      rw [ofBe_cons, ofBe_cons, ← hlength]
      rw [Nat.mul_add] at hstep
      omega
  | cons _ ih =>
      have hlength := Nat.succ.inj hlength
      rw [ofBe_cons, ofBe_cons, hlength]
      exact Nat.add_lt_add_right (ih hlength) _

theorem beBytes_lt {width m n : ℕ} (hmn : m < n) (hn : n < 256 ^ width) :
    beBytes width m < beBytes width n := by
  have hm := ofBe_beBytes_of_lt (hmn.trans hn)
  have hn := ofBe_beBytes_of_lt hn
  rcases lt_trichotomy (beBytes width m) (beBytes width n) with hlt | heq | hgt
  · exact hlt
  · rw [heq] at hm
    omega
  · have := ofBe_lt_ofBe (by simp) hgt
    omega

/-- A field of a record, found between what precedes and what follows it. -/
theorem cut_eq {bs : Bytes} (front field back : Bytes) {start width : ℕ}
    (h : bs = front ++ (field ++ back)) (hstart : start = front.length)
    (hwidth : width = field.length) : (bs.drop start).take width = field := by
  subst hstart hwidth
  rw [h, List.drop_left, List.take_left]

end Todb.Library
