import Mathlib.Algebra.Order.Ring.Int
import Mathlib.Tactic.Ring

/-!
# Deadlines

`struct timespec`, and the two functions of `rpc.cc` on it. A carry is
made where `tv_nsec` exceeds a second, so a result can have a whole second
in `tv_nsec`; the instants are right all the same, and so is what
`cmp_timespec` says of two results, but for two ways to write one instant.
-/

namespace Yfs

/-- `struct timespec`. -/
structure Timespec where
  /-- `tv_sec`; a `time_t` holds any that comes up. -/
  sec : ℤ
  /-- `tv_nsec`. -/
  nsec : ℤ
deriving DecidableEq

namespace Timespec

/-- The instant, in nanoseconds. -/
def instant (t : Timespec) : ℤ := t.sec * 10 ^ 9 + t.nsec

/-- What `clock_gettime` gives. -/
def Normal (t : Timespec) : Prop := 0 ≤ t.nsec ∧ t.nsec < 10 ^ 9

instance (t : Timespec) : Decidable t.Normal := inferInstanceAs (Decidable (_ ∧ _))

/-- The loop of `add_timespec`. -/
def carry (t : Timespec) : Timespec :=
  if 1000000000 < t.nsec then carry ⟨t.sec + 1, t.nsec - 1000000000⟩ else t
termination_by t.nsec.toNat
decreasing_by omega

end Timespec

/-- `cmp_timespec`. -/
def cmpTimespec (a b : Timespec) : ℤ :=
  if a.sec > b.sec then 1
  else if a.sec < b.sec then -1
  else if a.nsec > b.nsec then 1
  else if a.nsec < b.nsec then -1
  else 0

/-- `add_timespec`. -/
def addTimespec (a : Timespec) (b : Int32) : Timespec :=
  Timespec.carry ⟨a.sec + b.toInt.tdiv 1000, a.nsec + b.toInt.tmod 1000 * 1000000⟩

theorem instant_carry (t : Timespec) : t.carry.instant = t.instant := by
  fun_induction Timespec.carry t with
  | case1 t hgt ih =>
    rw [ih]
    unfold Timespec.instant
    dsimp only
    ring
  | case2 t hle => rfl

theorem nsec_carry_le (t : Timespec) : t.carry.nsec ≤ 10 ^ 9 := by
  fun_induction Timespec.carry t with
  | case1 t hgt ih => exact ih
  | case2 t hle => omega

theorem nsec_carry_nonneg {t : Timespec} (h : 0 ≤ t.nsec) : 0 ≤ t.carry.nsec := by
  fun_induction Timespec.carry t with
  | case1 t hgt ih => exact ih (by dsimp only; omega)
  | case2 t hle => exact h

/-- The sum is `b` milliseconds later. -/
theorem instant_addTimespec (a : Timespec) (b : Int32) :
    (addTimespec a b).instant = a.instant + b.toInt * 10 ^ 6 := by
  have hb : b.toInt.tmod 1000 + 1000 * b.toInt.tdiv 1000 = b.toInt := Int.tmod_add_mul_tdiv ..
  unfold addTimespec
  rw [instant_carry]
  unfold Timespec.instant
  dsimp only
  omega

/-- A whole second may be left in `tv_nsec`, but no more. -/
theorem nsec_addTimespec {a : Timespec} {b : Int32} (ha : 0 ≤ a.nsec) (hb : 0 ≤ b.toInt) :
    0 ≤ (addTimespec a b).nsec ∧ (addTimespec a b).nsec ≤ 10 ^ 9 := by
  refine ⟨nsec_carry_nonneg ?_, nsec_carry_le _⟩
  have hmod : 0 ≤ b.toInt.tmod 1000 := Int.tmod_nonneg _ hb
  dsimp only
  omega

/-- A positive result says that the first is later, in the order of the
two fields. -/
theorem cmpTimespec_pos_iff (a b : Timespec) :
    0 < cmpTimespec a b ↔ b.sec < a.sec ∨ a.sec = b.sec ∧ b.nsec < a.nsec := by
  unfold cmpTimespec
  split
  · omega
  split
  · omega
  split
  · omega
  split
  · omega
  · omega

/-- `cmp_timespec` compares the instants, also where a second was not
carried. -/
theorem instant_le_of_not_cmpTimespec_pos {a b : Timespec} (ha : a.nsec ≤ 10 ^ 9) (hb : 0 ≤ b.nsec)
    (h : ¬ 0 < cmpTimespec a b) : a.instant ≤ b.instant := by
  rw [cmpTimespec_pos_iff] at h
  unfold Timespec.instant
  omega

end Yfs
