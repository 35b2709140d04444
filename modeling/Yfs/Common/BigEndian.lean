import Mathlib.Data.Nat.Bitwise

/-!
# Big-endian words

A 16- or 32-bit word and its bytes, most significant first. Both
directions are total and inverse to each other: a word is determined by
its bytes, and every run of two or four bytes is the image of exactly
one word.
-/

namespace Common

/-! ## Two bytes -/

/-- The two bytes of a 16-bit word. -/
def be16 (x : UInt16) : List UInt8 :=
  [(x >>> 8).toUInt8, x.toUInt8]

/-- The 16-bit word of two bytes. -/
def join16 (b1 b0 : UInt8) : UInt16 :=
  b1.toUInt16 <<< 8 ||| b0.toUInt16

/-- Stacking a low part under a shifted high part is addition. -/
theorem shiftLeft_or_eq_add (a b k : ℕ) (hb : b < 2 ^ k) : a <<< k ||| b = a * 2 ^ k + b := by
  rw [← Nat.shiftLeft_add_eq_or_of_lt hb, Nat.shiftLeft_eq]

/-- The higher byte counts 256 times. -/
theorem toNat_join16 (b1 b0 : UInt8) : (join16 b1 b0).toNat = b1.toNat * 2 ^ 8 + b0.toNat := by
  have h1 := b1.toNat_lt
  have h0 := b0.toNat_lt
  have hs : b1.toNat <<< 8 % 2 ^ 16 = b1.toNat <<< 8 := by
    rw [Nat.shiftLeft_eq]
    exact Nat.mod_eq_of_lt (by omega)
  simp only [join16, UInt16.toNat_or, UInt16.toNat_shiftLeft, UInt8.toNat_toUInt16,
    UInt16.reduceToNat, Nat.reduceMod, hs]
  exact shiftLeft_or_eq_add _ _ _ h0

/-- Two bytes that give the number back. -/
theorem be16_eq (x : UInt16) :
    ∃ b1 b0 : UInt8, be16 x = [b1, b0] ∧ join16 b1 b0 = x := by
  refine ⟨_, _, rfl, UInt16.toNat_inj.1 ?_⟩
  have hx := x.toNat_lt
  rw [toNat_join16]
  simp only [UInt16.toNat_toUInt8, UInt16.toNat_shiftRight, UInt16.reduceToNat, Nat.reduceMod,
    Nat.shiftRight_eq_div_pow]
  omega

/-- The bytes of what two bytes make are the two. -/
theorem be16_join16 (b1 b0 : UInt8) : be16 (join16 b1 b0) = [b1, b0] := by
  have h1 := b1.toNat_lt
  have h0 := b0.toNat_lt
  have hj := toNat_join16 b1 b0
  simp only [be16, List.cons.injEq, and_true]
  constructor
  · apply UInt8.toNat_inj.1
    simp only [UInt16.toNat_toUInt8, UInt16.toNat_shiftRight, UInt16.reduceToNat, Nat.reduceMod,
      Nat.shiftRight_eq_div_pow, hj]
    omega
  · apply UInt8.toNat_inj.1
    rw [UInt16.toNat_toUInt8, hj]
    omega

/-! ## Four bytes -/

/-- The four bytes of a 32-bit word. -/
def be32 (x : UInt32) : List UInt8 :=
  [(x >>> 24).toUInt8, (x >>> 16).toUInt8, (x >>> 8).toUInt8, x.toUInt8]

/-- The 32-bit word of four bytes. -/
def join32 (b3 b2 b1 b0 : UInt8) : UInt32 :=
  b3.toUInt32 <<< 24 ||| b2.toUInt32 <<< 16 ||| b1.toUInt32 <<< 8 ||| b0.toUInt32

@[simp] theorem length_be32 (x : UInt32) : (be32 x).length = 4 := rfl

/-- The number that four bytes make. -/
theorem toNat_join32 (b3 b2 b1 b0 : UInt8) :
    (join32 b3 b2 b1 b0).toNat =
      b3.toNat * 2 ^ 24 + b2.toNat * 2 ^ 16 + b1.toNat * 2 ^ 8 + b0.toNat := by
  have h3 := b3.toNat_lt
  have h2 := b2.toNat_lt
  have h1 := b1.toNat_lt
  have h0 := b0.toNat_lt
  have e3 : b3.toNat <<< 24 % 2 ^ 32 = b3.toNat <<< 24 := by
    rw [Nat.shiftLeft_eq]; exact Nat.mod_eq_of_lt (by omega)
  have e2 : b2.toNat <<< 16 % 2 ^ 32 = b2.toNat <<< 16 := by
    rw [Nat.shiftLeft_eq]; exact Nat.mod_eq_of_lt (by omega)
  have e1 : b1.toNat <<< 8 % 2 ^ 32 = b1.toNat <<< 8 := by
    rw [Nat.shiftLeft_eq]; exact Nat.mod_eq_of_lt (by omega)
  simp only [join32, UInt32.toNat_or, UInt32.toNat_shiftLeft, UInt8.toNat_toUInt32,
    UInt32.reduceToNat, Nat.reduceMod, e3, e2, e1]
  -- stack from the bottom up, so that each shifted part sits above a number below its weight
  rw [Nat.or_assoc, Nat.or_assoc, shiftLeft_or_eq_add b1.toNat b0.toNat 8 h0,
    shiftLeft_or_eq_add b2.toNat _ 16 (by omega), shiftLeft_or_eq_add b3.toNat _ 24 (by omega)]
  omega

/-- Four bytes that give the number back. -/
theorem be32_eq (x : UInt32) :
    ∃ b3 b2 b1 b0 : UInt8, be32 x = [b3, b2, b1, b0] ∧ join32 b3 b2 b1 b0 = x := by
  refine ⟨_, _, _, _, rfl, UInt32.toNat_inj.1 ?_⟩
  have hx := x.toNat_lt
  rw [toNat_join32]
  simp only [UInt32.toNat_toUInt8, UInt32.toNat_shiftRight, UInt32.reduceToNat, Nat.reduceMod,
    Nat.shiftRight_eq_div_pow]
  omega

/-- The bytes of what four bytes make are the four. -/
theorem be32_join32 (b3 b2 b1 b0 : UInt8) : be32 (join32 b3 b2 b1 b0) = [b3, b2, b1, b0] := by
  have h3 := b3.toNat_lt
  have h2 := b2.toNat_lt
  have h1 := b1.toNat_lt
  have h0 := b0.toNat_lt
  have hj := toNat_join32 b3 b2 b1 b0
  have key : ∀ (k : UInt32) (b : UInt8), k.toNat < 32 →
      (join32 b3 b2 b1 b0).toNat / 2 ^ k.toNat % 2 ^ 8 = b.toNat →
      (join32 b3 b2 b1 b0 >>> k).toUInt8 = b := by
    intro k b hk hb
    apply UInt8.toNat_inj.1
    rw [UInt32.toNat_toUInt8, UInt32.toNat_shiftRight, Nat.mod_eq_of_lt hk,
      Nat.shiftRight_eq_div_pow, hb]
  simp only [be32, List.cons.injEq, and_true]
  refine ⟨key 24 b3 (by decide) ?_, key 16 b2 (by decide) ?_, key 8 b1 (by decide) ?_, ?_⟩
  · rw [hj]; simp only [UInt32.reduceToNat]; omega
  · rw [hj]; simp only [UInt32.reduceToNat]; omega
  · rw [hj]; simp only [UInt32.reduceToNat]; omega
  · apply UInt8.toNat_inj.1
    rw [UInt32.toNat_toUInt8, hj]
    omega

/-- A small word read as a signed `int` is the number it is. -/
theorem toInt_ofNat_of_lt {n : ℕ} (h : n < 2 ^ 31) : (UInt32.ofNat n).toInt32.toInt = n := by
  have hn : (UInt32.ofNat n).toNat = n := Nat.mod_eq_of_lt (by omega)
  have := BitVec.toInt_eq_toNat_of_lt (x := (UInt32.ofNat n).toBitVec)
    (by rw [UInt32.toNat_toBitVec, hn]; omega)
  rwa [UInt32.toNat_toBitVec, hn] at this

end Common
