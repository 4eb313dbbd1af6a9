import Mathlib.Data.Nat.Basic
import Mathlib.Data.UInt

/-!
# Words packed from a magic number and a small number

`IdMasks` are two masks that split a 32-bit word: the low `bits` bits are a number, the others a
magic.

- `IdMasks.slot_eq`: the low part as a remainder
- `IdMasks.magic_or`, `IdMasks.slot_or`: the masks recover both parts from their union
- `IdMasks.ext`: a word is determined by its two parts
-/

/-- Two masks that split a word after its low `bits` bits. -/
structure IdMasks where
  high : UInt32
  low : UInt32
  bits : Nat
  split : high ||| low = 0xFFFFFFFF
  disjoint : low &&& high = 0
  low_eq : low.toNat = 2 ^ bits - 1
  bits_le : bits ≤ 32

namespace IdMasks

variable (m : IdMasks) {a b u magic : UInt32} {n : Nat}

theorem or_and_mask (a b mask : UInt32) : (a ||| b) &&& mask = (a &&& mask) ||| (b &&& mask) := by
  apply UInt32.toNat_inj.mp
  simp only [UInt32.toNat_and, UInt32.toNat_or]
  exact Nat.and_or_distrib_right a.toNat b.toNat mask.toNat

theorem slot_eq (u : UInt32) : (u &&& m.low).toNat = u.toNat % 2 ^ m.bits := by
  rw [UInt32.toNat_and, m.low_eq]
  exact Nat.and_two_pow_sub_one_eq_mod u.toNat m.bits

theorem slot_ofNat (h : n < 2 ^ m.bits) : (UInt32.ofNat n &&& m.low).toNat = n := by
  have hdvd : 2 ^ m.bits ∣ 2 ^ 32 := Nat.pow_dvd_pow 2 m.bits_le
  rw [m.slot_eq, UInt32.toNat_ofNat', Nat.mod_mod_of_dvd _ hdvd, Nat.mod_eq_of_lt h]

/-- A small number has no magic bits. -/
theorem magic_ofNat (h : n < 2 ^ m.bits) : UInt32.ofNat n &&& m.high = 0 := by
  have hlow : UInt32.ofNat n = UInt32.ofNat n &&& m.low := by
    apply UInt32.toNat_inj.mp
    rw [m.slot_ofNat h, UInt32.toNat_ofNat']
    exact Nat.mod_eq_of_lt (h.trans_le (Nat.pow_le_pow_right (by decide) m.bits_le))
  rw [hlow, UInt32.and_assoc, m.disjoint]
  exact UInt32.and_zero

theorem and_low_eq_zero (h : (u &&& m.low).toNat = 0) : u &&& m.low = 0 := UInt32.toNat_inj.mp h

/-- A word is the union of its parts. -/
theorem parts (u : UInt32) : u = (u &&& m.high) ||| (u &&& m.low) := by
  have hall : (m.high ||| m.low) &&& u = u := by
    rw [m.split]
    exact UInt32.neg_one_and
  rw [or_and_mask, UInt32.and_comm m.high, UInt32.and_comm m.low] at hall
  exact hall.symm

theorem magic_eq_self (h : (u &&& m.low).toNat = 0) : u &&& m.high = u := by
  have hparts := m.parts u
  rw [m.and_low_eq_zero h, UInt32.or_zero] at hparts
  exact hparts.symm

/-- **Ids**: from `magic | n` the masks recover both parts. -/
theorem magic_or (hmagic : (magic &&& m.low).toNat = 0) (hn : n < 2 ^ m.bits) :
    (magic ||| UInt32.ofNat n) &&& m.high = magic := by
  rw [or_and_mask, m.magic_ofNat hn, m.magic_eq_self hmagic, UInt32.or_zero]

theorem slot_or (hmagic : (magic &&& m.low).toNat = 0) (hn : n < 2 ^ m.bits) :
    ((magic ||| UInt32.ofNat n) &&& m.low).toNat = n := by
  rw [or_and_mask, m.and_low_eq_zero hmagic, UInt32.zero_or, m.slot_ofNat hn]

/-- A word is determined by its two parts. -/
theorem ext (hmagic : a &&& m.high = b &&& m.high) (hslot : (a &&& m.low).toNat = (b &&& m.low).toNat) :
    a = b := by
  rw [m.parts a, m.parts b, hmagic, UInt32.toNat_inj.mp hslot]

end IdMasks
