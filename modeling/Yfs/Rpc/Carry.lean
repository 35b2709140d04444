import Yfs.Rpc.Timespec

/-!
# The carry of `add_timespec`

`add_timespec` and `cmp_timespec` of `rpc.cc` on a `timespec` as it is in
memory, two fields of 64 bits. What they compute is what `Rpc.Timespec`
says, with `tv_sec` modulo `2 ^ 64`. The carry is made where `tv_nsec` is
above a second, and not where it is a second: such a result is not
normalised, `pthread_cond_timedwait` does not take it, and `cmp_timespec`
does not find it equal to the same instant in the other form.
`goodDeadlines_iff` says that this, and a sum beyond the last `time_t`,
are the only cases in which a deadline is not good.
-/

namespace Yfs

/-- `struct timespec`, a `time_t` and a `long`. -/
structure CTimespec where
  /-- `tv_sec`. -/
  sec : Int64
  /-- `tv_nsec`. -/
  nsec : Int64
deriving DecidableEq

namespace CTimespec

/-- The numbers in the fields. -/
def num (t : CTimespec) : Timespec := ⟨t.sec.toInt, t.nsec.toInt⟩

/-- What is left of `tv_nsec` in the loop is smaller. -/
theorem toInt_sub_second {n : Int64} (h : 1000000000 < n) :
    (n - 1000000000).toInt = n.toInt - 1000000000 :=
  Int64.toInt_sub_of_le n 1000000000 (by decide) (Int64.le_of_lt h)

/-- The loop of `add_timespec`. -/
def carry (t : CTimespec) : CTimespec :=
  if 1000000000 < t.nsec then carry ⟨t.sec + 1, t.nsec - 1000000000⟩ else t
termination_by t.nsec.toInt.toNat
decreasing_by
  rename_i h
  have hlt := Int64.lt_iff_toInt_lt.1 h
  rw [toInt_sub_second h]
  change 1000000000 < t.nsec.toInt at hlt
  omega

/-- `add_timespec`. `none` is a failed `assert`, and a sum that does not
fit wraps around. -/
def addTimespec (a : CTimespec) (b : Int32) : Option CTimespec :=
  let result : CTimespec :=
    ⟨a.sec + (b / 1000).toInt64, a.nsec + (b % 1000 * 1000000).toInt64⟩
  if 0 ≤ result.nsec then some result.carry else none

/-- `cmp_timespec`. -/
def cmpTimespec (a b : CTimespec) : Int32 :=
  if a.sec > b.sec then 1
  else if a.sec < b.sec then -1
  else if a.nsec > b.nsec then 1
  else if a.nsec < b.nsec then -1
  else 0

/-- `pthread_cond_timedwait` takes the deadline. It returns `EINVAL` for
any other. -/
def Accepted (t : CTimespec) : Prop := 0 ≤ t.nsec ∧ t.nsec < 1000000000

instance (t : CTimespec) : Decidable t.Accepted := inferInstanceAs (Decidable (_ ∧ _))

/-- What a clock shows. -/
structure OnClock (t : CTimespec) : Prop where
  sec : 0 ≤ t.sec
  normal : t.num.Normal

end CTimespec

/-- The result of `add_timespec` is the instant `b` milliseconds after `a`,
in normal form. -/
structure GoodDeadline (a : CTimespec) (b : Int32) (r : CTimespec) : Prop where
  result : a.addTimespec b = some r
  instant : r.num.instant = a.num.instant + b.toInt * 10 ^ 6
  normal : r.num.Normal
  accepted : r.Accepted

/-- Both results are so, and `cmp_timespec` tells their order. -/
def GoodDeadlines (a : CTimespec) (b : Int32) (a' : CTimespec) (b' : Int32) : Prop :=
  ∃ r r', GoodDeadline a b r ∧ GoodDeadline a' b' r' ∧
    (r.cmpTimespec r').toInt = (r.num.instant - r'.num.instant).sign

/-- The nanoseconds do not add up to a second exactly, and the sum is
before the end of `time_t`. -/
structure Regular (a : CTimespec) (b : Int32) : Prop where
  ne_second : a.nsec.toInt + b.toInt.tmod 1000 * 10 ^ 6 ≠ 10 ^ 9
  lt_end : a.num.instant + b.toInt * 10 ^ 6 < 2 ^ 63 * 10 ^ 9

/-! ## With numbers without bound -/

/-- A second that is not carried comes from a sum of nanoseconds that is
one. -/
theorem nsec_addTimespec_eq_iff {a : Timespec} (ha : a.Normal) (b : Int32) :
    (addTimespec a b).nsec = 10 ^ 9 ↔ a.nsec + b.toInt.tmod 1000 * 10 ^ 6 = 10 ^ 9 := by
  obtain ⟨hlo, hhi⟩ := ha
  have hmod : b.toInt.tmod 1000 < 1000 := Int.tmod_lt_of_pos _ (by decide)
  unfold addTimespec
  rw [Timespec.carry]
  dsimp only
  split
  · -- the carry is made once
    rw [Timespec.carry, if_neg (by dsimp only; omega)]
    dsimp only
    omega
  · dsimp only
    omega

theorem sec_addTimespec_nonneg {a : Timespec} {b : Int32} (ha : 0 ≤ a.sec) (hb : 0 ≤ b.toInt) :
    0 ≤ (addTimespec a b).sec := by
  have hcarry : ∀ t : Timespec, t.sec ≤ t.carry.sec := by
    intro t
    fun_induction Timespec.carry t with
    | case1 t hgt ih =>
      dsimp only at ih
      omega
    | case2 t hle => exact Int.le_refl _
  have hdiv : 0 ≤ b.toInt.tdiv 1000 := Int.tdiv_nonneg hb (by decide)
  have hle := hcarry ⟨a.sec + b.toInt.tdiv 1000, a.nsec + b.toInt.tmod 1000 * 1000000⟩
  unfold addTimespec
  dsimp only at hle
  omega

/-- In normal form, `cmp_timespec` tells the order of the instants. -/
theorem cmpTimespec_eq_sign {a b : Timespec} (ha : a.Normal) (hb : b.Normal) :
    cmpTimespec a b = (a.instant - b.instant).sign := by
  obtain ⟨ha0, ha⟩ := ha
  obtain ⟨hb0, hb⟩ := hb
  unfold cmpTimespec Timespec.instant
  split
  · exact (Int.sign_eq_one_of_pos (by omega)).symm
  split
  · exact (Int.sign_eq_neg_one_of_neg (by omega)).symm
  split
  · exact (Int.sign_eq_one_of_pos (by omega)).symm
  split
  · exact (Int.sign_eq_neg_one_of_neg (by omega)).symm
  · exact (Int.sign_eq_zero_iff_zero.2 (by omega)).symm

/-! ## In memory -/

namespace CTimespec

/-- The field `tv_nsec` is right, and `tv_sec` is modulo `2 ^ 64`. -/
structure Holds (t : CTimespec) (v : Timespec) : Prop where
  sec : t.sec.toInt = v.sec.bmod (2 ^ 64)
  nsec : t.nsec.toInt = v.nsec

/-- **The loop** does what it does with numbers. -/
theorem Holds.carry {t : CTimespec} {v : Timespec} (h : t.Holds v) : t.carry.Holds v.carry := by
  fun_induction Timespec.carry v generalizing t with
  | case1 v hgt ih =>
    have hlt : 1000000000 < t.nsec := by
      rw [Int64.lt_iff_toInt_lt, h.nsec]
      exact hgt
    rw [CTimespec.carry, if_pos hlt]
    refine ih ⟨?_, ?_⟩
    · rw [Int64.toInt_add, h.sec]
      exact Int.bmod_add_bmod
    · rw [toInt_sub_second hlt, h.nsec]
  | case2 v hle =>
    have hnot : ¬ 1000000000 < t.nsec := by
      rw [Int64.lt_iff_toInt_lt, h.nsec]
      exact hle
    rw [CTimespec.carry, if_neg hnot]
    exact h

/-- **`add_timespec`** does not fail, and its result is the sum, but that
`tv_sec` may have wrapped around. -/
theorem addTimespec_holds {a : CTimespec} {b : Int32} (ha : a.OnClock) (hb : 0 ≤ b) :
    ∃ r, a.addTimespec b = some r ∧ r.Holds (Yfs.addTimespec a.num b) := by
  have hb' : 0 ≤ b.toInt := Int32.le_iff_toInt_le.1 hb
  obtain ⟨hlo, hhi⟩ := ha.normal
  change 0 ≤ a.nsec.toInt at hlo
  change a.nsec.toInt < 10 ^ 9 at hhi
  have hmod0 : 0 ≤ b.toInt.tmod 1000 := Int.tmod_nonneg _ hb'
  have hmod : b.toInt.tmod 1000 < 1000 := Int.tmod_lt_of_pos _ (by decide)
  have hdiv : (b / 1000).toInt64.toInt = b.toInt.tdiv 1000 := by
    rw [Int32.toInt_toInt64, Int32.toInt_div_of_ne_right b 1000 (by decide)]
    rfl
  have hnano : (b % 1000 * 1000000).toInt64.toInt = b.toInt.tmod 1000 * 1000000 := by
    have hrem : (b % 1000).toInt = b.toInt.tmod 1000 := Int32.toInt_mod b 1000
    rw [Int32.toInt_toInt64, Int32.toInt_mul, hrem]
    change (b.toInt.tmod 1000 * 1000000).bmod (2 ^ 32) = _
    exact Int.bmod_eq_of_le (by omega) (by omega)
  have hstart : CTimespec.Holds
      ⟨a.sec + (b / 1000).toInt64, a.nsec + (b % 1000 * 1000000).toInt64⟩
      ⟨a.num.sec + b.toInt.tdiv 1000, a.num.nsec + b.toInt.tmod 1000 * 1000000⟩ := by
    refine ⟨?_, ?_⟩
    · rw [Int64.toInt_add, hdiv]
      rfl
    · rw [Int64.toInt_add, hnano]
      exact Int.bmod_eq_of_le (by omega) (by omega)
  have hassert : 0 ≤ a.nsec + (b % 1000 * 1000000).toInt64 := by
    rw [Int64.le_iff_toInt_le, hstart.nsec]
    change 0 ≤ a.nsec.toInt + b.toInt.tmod 1000 * 1000000
    omega
  refine ⟨_, ?_, hstart.carry⟩
  unfold addTimespec
  exact if_pos hassert

theorem toInt_cmpTimespec (a b : CTimespec) :
    (a.cmpTimespec b).toInt = Yfs.cmpTimespec a.num b.num := by
  unfold CTimespec.cmpTimespec Yfs.cmpTimespec num
  simp only [gt_iff_lt, Int64.lt_iff_toInt_lt]
  split
  · rfl
  split
  · rfl
  split
  · rfl
  split
  · rfl
  · rfl

theorem accepted_iff (t : CTimespec) : t.Accepted ↔ t.num.Normal := by
  unfold Accepted Timespec.Normal
  rw [Int64.le_iff_toInt_le, Int64.lt_iff_toInt_lt]
  exact Iff.rfl

end CTimespec

/-! ## Good deadlines -/

/-- A deadline is good exactly where the carry is right and `tv_sec` does
not wrap around. -/
theorem exists_goodDeadline_iff {a : CTimespec} {b : Int32} (ha : a.OnClock) (hb : 0 ≤ b) :
    (∃ r, GoodDeadline a b r) ↔ Regular a b := by
  have hb' : 0 ≤ b.toInt := Int32.le_iff_toInt_le.1 hb
  obtain ⟨r, hr, hsec, hnsec⟩ := CTimespec.addTimespec_holds ha hb
  have hinstant := instant_addTimespec a.num b
  obtain ⟨hlo, hhi⟩ := nsec_addTimespec ha.normal.1 hb'
  have hsecond := nsec_addTimespec_eq_iff ha.normal b
  have hpos := sec_addTimespec_nonneg (a := a.num) (Int64.le_iff_toInt_le.1 ha.sec) hb'
  generalize addTimespec a.num b = v at hsec hnsec hinstant hlo hhi hsecond hpos
  unfold Timespec.instant at hinstant
  constructor
  · rintro ⟨r', h⟩
    obtain rfl : r = r' := Option.some.inj (hr.symm.trans h.result)
    have hlt : r.nsec.toInt < 10 ^ 9 := h.normal.2
    have hsum : r.sec.toInt * 10 ^ 9 + r.nsec.toInt = a.num.instant + b.toInt * 10 ^ 6 := h.instant
    have hfits := r.sec.toInt_lt
    refine ⟨fun heq => ?_, ?_⟩
    · have := hsecond.2 heq
      omega
    · unfold Timespec.instant at hsum ⊢
      omega
  · rintro ⟨hne, hend⟩
    have hlt : v.nsec ≠ 10 ^ 9 := fun heq => hne (hsecond.1 heq)
    have hsame : v.sec.bmod (2 ^ 64) = v.sec := by
      unfold Timespec.instant at hend
      exact Int.bmod_eq_of_le (by omega) (by omega)
    have hnormal : r.num.Normal := by
      show 0 ≤ r.nsec.toInt ∧ r.nsec.toInt < 10 ^ 9
      omega
    refine ⟨r, hr, ?_, hnormal, r.accepted_iff.2 hnormal⟩
    show r.sec.toInt * 10 ^ 9 + r.nsec.toInt = _
    rw [hsec, hsame, hnsec, hinstant]
    rfl

/-- **When deadlines are good.** For any two readings of a clock and any
two waits of no negative length, `add_timespec` gives the instants exactly
and in normal form, so that `pthread_cond_timedwait` takes both, and
`cmp_timespec` gives their order, if and only if in neither sum the
nanoseconds make up exactly a second, or `tv_sec` is too large for its
type. -/
theorem goodDeadlines_iff {a a' : CTimespec} {b b' : Int32} (ha : a.OnClock) (hb : 0 ≤ b)
    (ha' : a'.OnClock) (hb' : 0 ≤ b') :
    GoodDeadlines a b a' b' ↔ Regular a b ∧ Regular a' b' := by
  rw [← exists_goodDeadline_iff ha hb, ← exists_goodDeadline_iff ha' hb']
  constructor
  · rintro ⟨r, r', h, h', -⟩
    exact ⟨⟨r, h⟩, ⟨r', h'⟩⟩
  · rintro ⟨⟨r, h⟩, ⟨r', h'⟩⟩
    refine ⟨r, r', h, h', ?_⟩
    rw [CTimespec.toInt_cmpTimespec, cmpTimespec_eq_sign h.normal h'.normal]

/-- Two waits that begin at the same time. -/
theorem goodDeadlines_three_seconds :
    CTimespec.OnClock ⟨1400000000, 600000000⟩ ∧
      GoodDeadlines ⟨1400000000, 600000000⟩ 500 ⟨1400000000, 600000000⟩ 3000 := by
  have hclock : CTimespec.OnClock ⟨1400000000, 600000000⟩ := ⟨by decide, by decide⟩
  refine ⟨hclock, (goodDeadlines_iff hclock (by decide) hclock (by decide)).2 ⟨?_, ?_⟩⟩
  · exact ⟨by decide, by decide⟩
  · exact ⟨by decide, by decide⟩

/-- Half a second after the middle of a second: the result has a whole
second in `tv_nsec`, and is refused. -/
theorem not_goodDeadlines_half_second :
    CTimespec.OnClock ⟨1400000000, 500000000⟩ ∧
      CTimespec.addTimespec ⟨1400000000, 500000000⟩ 500 = some ⟨1400000000, 1000000000⟩ ∧
      ¬ CTimespec.Accepted ⟨1400000000, 1000000000⟩ ∧
      ¬ GoodDeadlines ⟨1400000000, 500000000⟩ 500 ⟨1400000000, 500000000⟩ 500 := by
  have hresult : CTimespec.addTimespec ⟨1400000000, 500000000⟩ 500 =
      some ⟨1400000000, 1000000000⟩ := by
    unfold CTimespec.addTimespec
    dsimp only
    rw [if_pos (by decide), CTimespec.carry, if_neg (by decide)]
    rfl
  have hrefused : ¬ CTimespec.Accepted ⟨1400000000, 1000000000⟩ := by decide
  refine ⟨⟨by decide, by decide⟩, hresult, hrefused, ?_⟩
  rintro ⟨r, -, h, -⟩
  obtain rfl := Option.some.inj (hresult.symm.trans h.result)
  exact hrefused h.accepted

end Yfs
