import Mathlib.Data.List.Basic
import Mathlib.Algebra.Group.Nat.Defs

/-!
# Decimal numerals

Numbers written in decimal, as strings of bytes, and the number such a
string stands for. A numeral stands for its number (`ofDecimal_decimal`),
and what is left of one that was cut off stands for a smaller one
(`ofDecimal_take_lt`).
-/

namespace Common

/-- The byte is a decimal digit. -/
def isDigit (c : UInt8) : Bool := decide (48 ≤ c.toNat ∧ c.toNat ≤ 57)

/-- The decimal numeral of `n`. -/
def decimal (n : ℕ) : List UInt8 := (Nat.toDigits 10 n).map Char.toUInt8

/-- The number a string of digits stands for. -/
def ofDecimal (l : List UInt8) : ℕ := l.foldl (fun v c => 10 * v + (c.toNat - 48)) 0

theorem toNat_toUInt8 {c : Char} (h : c.isDigit = true) :
    c.toUInt8.toNat = c.toNat ∧ 48 ≤ c.toNat ∧ c.toNat ≤ 57 := by
  have hlo : 48 ≤ c.toNat := by
    have := (Bool.and_eq_true_iff.1 h).1
    exact of_decide_eq_true this
  have hhi : c.toNat ≤ 57 := by
    have := (Bool.and_eq_true_iff.1 h).2
    exact of_decide_eq_true this
  refine ⟨?_, hlo, hhi⟩
  show c.val.toNat % 2 ^ 8 = c.val.toNat
  exact Nat.mod_eq_of_lt (by change c.val.toNat ≤ 57 at hhi; omega)

/-- The text of a number has nothing but digits. -/
theorem isDigit_of_mem_decimal {n : ℕ} {c : UInt8} (h : c ∈ decimal n) : isDigit c = true := by
  obtain ⟨d, hd, rfl⟩ := List.mem_map.1 h
  obtain ⟨heq, hlo, hhi⟩ := toNat_toUInt8
    (Nat.isDigit_of_mem_toDigits (by decide) (by decide) hd)
  exact decide_eq_true (heq ▸ ⟨hlo, hhi⟩)

theorem decimal_ne_nil (n : ℕ) : decimal n ≠ [] := by
  rw [decimal, Ne, List.map_eq_nil_iff]
  exact Nat.toDigits_ne_nil

/-- **A numeral stands for its number.** -/
theorem ofDecimal_decimal (n : ℕ) : ofDecimal (decimal n) = n := by
  have hfold : ∀ (l : List Char) (v : ℕ), (∀ c ∈ l, c.isDigit = true) →
      (l.map Char.toUInt8).foldl (fun v c => 10 * v + (c.toNat - 48)) v =
        Nat.ofDigitChars 10 l v := by
    intro l
    induction l with
    | nil => intro v _; rfl
    | cons c l ih =>
      intro v hl
      rw [List.map_cons, List.foldl_cons, Nat.ofDigitChars_cons,
        (toNat_toUInt8 (hl c List.mem_cons_self)).1]
      exact ih _ fun d hd => hl d (List.mem_cons_of_mem c hd)
  rw [ofDecimal, decimal, hfold _ _ fun c hc =>
    Nat.isDigit_of_mem_toDigits (by decide) (by decide) hc]
  exact Nat.ofDigitChars_ten_toDigits

/-- Reading on from a number shifts it by the digits that come. -/
theorem foldl_ofDecimal (l : List UInt8) (v : ℕ) :
    l.foldl (fun v c => 10 * v + (c.toNat - 48)) v = v * 10 ^ l.length + ofDecimal l := by
  induction l generalizing v with
  | nil => simp [ofDecimal]
  | cons c l ih =>
    have hcons : ofDecimal (c :: l) = (10 * 0 + (c.toNat - 48)) * 10 ^ l.length + ofDecimal l :=
      ih _
    rw [List.foldl_cons, ih, hcons, List.length_cons, Nat.pow_succ, Nat.mul_zero, Nat.zero_add,
      Nat.add_mul, Nat.mul_comm 10 v, Nat.mul_assoc, Nat.mul_comm 10 (10 ^ l.length),
      Nat.add_assoc]

/-- The digits in front count for more. -/
theorem ofDecimal_append (l m : List UInt8) :
    ofDecimal (l ++ m) = ofDecimal l * 10 ^ m.length + ofDecimal m := by
  rw [ofDecimal, List.foldl_append, foldl_ofDecimal]
  rfl

/-- A numeral that lost its last digits, but not all, stands for a
smaller number. -/
theorem ofDecimal_take_lt {n k : ℕ} (hk : 0 < k) (hlt : k < (decimal n).length) :
    ofDecimal ((decimal n).take k) < n := by
  have happ := ofDecimal_append ((decimal n).take k) ((decimal n).drop k)
  rw [List.take_append_drop, ofDecimal_decimal, List.length_drop] at happ
  have hpos : 0 < n := by
    -- zero has one digit, of which none can be lost
    rcases Nat.eq_zero_or_pos n with rfl | hpos
    · have hone : (decimal 0).length = 1 := by rw [decimal, Nat.toDigits_zero]; rfl
      omega
    · exact hpos
  have hpow : 10 ^ 1 ≤ 10 ^ ((decimal n).length - k) :=
    Nat.pow_le_pow_right (by decide) (by omega)
  by_contra hle
  have hmul := Nat.mul_le_mul (Nat.le_of_not_lt hle) hpow
  omega

end Common
