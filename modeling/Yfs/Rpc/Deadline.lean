import Mathlib.Data.Bool.Basic
import Mathlib.Tactic.Positivity
import Yfs.Common.Run
import Yfs.Rpc.Timespec

/-!
# The loop of a call

`call1` transmits, waits for the reply until a deadline, and transmits
again, with twice the time to wait in each iteration. It ends when the
call is done, or one iteration after the wait for its last deadline, which
it marks by `finaldeadline.tv_sec = 0`. That the doubling does not
overflow rests on the time that the waits before have taken. The mark can
also be the real `tv_sec` of the deadline, in the first second after the
epoch; `boundedLoop_iff` says that this is the only case in which the loop
does not do what it should.
-/

namespace Yfs

open Common

/-! ## The loop -/

/-- Where the call is. -/
inductive LoopPc where
  /-- At the start of the body. -/
  | head
  /-- In the timed wait. -/
  | waiting (deadline : Timespec)
  /-- After the loop. -/
  | left
  /-- It has returned; `timeout` says whether `timeout_failure`. -/
  | returned (timeout : Bool)
deriving DecidableEq

/-- A call of `call1`. -/
structure CallLoop where
  /-- What a reading of the clock gives. -/
  clock : Timespec
  /-- `curr_to.to`. -/
  curr : Int32
  /-- `finaldeadline`. -/
  final : Timespec
  transmit : Bool
  /-- Whether `ch` is not null. -/
  ch : Bool
  /-- `ca.done`. -/
  done : Bool
  pc : LoopPc
  /-- The iterations begun. -/
  iterations : ℕ
  /-- The iterations that computed a deadline, each with its `curr_to.to`. -/
  used : List (ℕ × Int32)

namespace CallLoop

/-- Before the loop; the first reading of the clock is `start`. -/
def init (start : Timespec) (ms : Int32) : CallLoop where
  clock := start
  curr := 1000
  final := addTimespec start ms
  transmit := true
  ch := false
  done := false
  pc := .head
  iterations := 0
  used := []

/-- What can happen. -/
inductive Act where
  /-- The clock goes on. -/
  | tick (t : Timespec)
  /-- The reply comes. -/
  | reply
  /-- The body, up to the wait; `connected` says whether `get_refconn`
  gets a connection. -/
  | body (connected : Bool)
  /-- The wait returns, because the call is done or the deadline has
  passed; `dead` says whether the connection is dead. -/
  | wake (dead : Bool)
  /-- The call returns. -/
  | ret

/-- The body, up to the wait. -/
def body (s : CallLoop) (connected : Bool) : CallLoop :=
  let s := { s with
    iterations := s.iterations + 1
    ch := if s.transmit then s.ch || connected else s.ch
    transmit := false }
  if s.final.sec = 0 then { s with pc := .left }
  else
    let next := addTimespec s.clock s.curr
    let s := { s with used := (s.iterations - 1, s.curr) :: s.used }
    if cmpTimespec next s.final > 0 then
      { s with final := { s.final with sec := 0 }, pc := .waiting s.final }
    else { s with pc := .waiting next }

/-- The end of the body. -/
def wake (retrans : Bool) (s : CallLoop) (dead : Bool) : CallLoop :=
  if s.done then { s with pc := .left }
  else { s with
    transmit := (retrans && (!s.ch || dead)) || s.transmit
    curr := s.curr <<< 1
    pc := .head }

/-- One step. -/
def step (retrans : Bool) (s : CallLoop) : Act → Option CallLoop
  | .tick t =>
    if t.Normal ∧ s.clock.instant ≤ t.instant then some { s with clock := t } else none
  | .reply => some { s with done := true }
  | .body connected => if s.pc = .head then some (s.body connected) else none
  | .wake dead =>
    match s.pc with
    | .waiting deadline =>
      if s.done = true ∨ deadline.instant ≤ s.clock.instant then some (s.wake retrans dead)
      else none
    | _ => none
  | .ret => if s.pc = .left then some { s with pc := .returned (!s.done) } else none

end CallLoop

/-- The end of the time the caller gives. -/
def timeLimit (start : Timespec) (ms : Int32) : ℤ := start.instant + ms.toInt * 10 ^ 6

/-- The `curr_to.to` of an iteration is what it was at first, doubled each
time: it did not overflow. -/
def Doubled (p : ℕ × Int32) : Prop :=
  p.2.toInt = 1000 * 2 ^ p.1 ∧ (1000 * 2 ^ p.1 : ℤ) ≤ 2 ^ 31 - 1

/-- What the loop should do. -/
structure BoundedLoop (start : Timespec) (ms : Int32) (s : CallLoop) : Prop where
  iterations : s.iterations ≤ 23
  /-- The last of them leaves the loop. -/
  ends : s.iterations = 23 → s.pc = .left ∨ ∃ b, s.pc = .returned b
  used : ∀ p ∈ s.used, Doubled p
  timeout : s.pc = .returned true → timeLimit start ms ≤ s.clock.instant

/-! ## The invariant -/

/-- The time that all waits up to iteration `k` take, in nanoseconds. -/
def waited (k : ℕ) : ℤ := 1000 * (2 ^ k - 1) * 10 ^ 6

/-- There is no time left, and the loop knows it. -/
structure Late (start : Timespec) (ms : Int32) (s : CallLoop) : Prop where
  iterations : s.iterations ≤ 22
  clock : timeLimit start ms ≤ s.clock.instant

/-- Iteration `k`, with time left when it began. -/
structure OnTime (start : Timespec) (ms : Int32) (s : CallLoop) (k : ℕ) : Prop where
  final : s.final = addTimespec start ms
  curr : s.curr.toInt = 1000 * 2 ^ k
  le : waited k ≤ ms.toInt * 10 ^ 6

/-- The invariant at each place. -/
def LoopOk (start : Timespec) (ms : Int32) (s : CallLoop) : Prop :=
  match s.pc with
  | .head =>
    (s.final.sec = 0 → Late start ms s) ∧
      (s.final.sec ≠ 0 → OnTime start ms s s.iterations ∧
        start.instant + waited s.iterations ≤ s.clock.instant)
  | .waiting d =>
    (s.final.sec = 0 ∧ s.iterations ≤ 22 ∧ d.instant = timeLimit start ms) ∨
      (s.final.sec ≠ 0 ∧ ∃ k, s.iterations = k + 1 ∧ OnTime start ms s k ∧
        waited (k + 1) ≤ ms.toInt * 10 ^ 6 ∧ start.instant + waited (k + 1) ≤ d.instant)
  | .left => s.iterations ≤ 23 ∧ (s.done = false → timeLimit start ms ≤ s.clock.instant)
  | .returned b => s.iterations ≤ 23 ∧ (b = true → timeLimit start ms ≤ s.clock.instant)

/-- The invariant. -/
structure Loop (start : Timespec) (ms : Int32) (s : CallLoop) : Prop where
  normal : s.clock.Normal
  ok : LoopOk start ms s
  used : ∀ p ∈ s.used, Doubled p

section

variable {start : Timespec} {ms : Int32} {s s' : CallLoop} {k : ℕ}

theorem waited_succ (k : ℕ) : waited (k + 1) = waited k + 1000 * 2 ^ k * 10 ^ 6 := by
  unfold waited
  rw [pow_succ]
  ring

/-- An `int` of milliseconds is used up after 21 waits. -/
theorem le_of_waited_le (h : waited k ≤ ms.toInt * 10 ^ 6) : k ≤ 21 := by
  by_contra hk
  have hpow : (2 : ℤ) ^ 22 ≤ 2 ^ k := pow_le_pow_right₀ (by decide) (by omega)
  have hms := ms.toInt_lt
  unfold waited at h
  omega

theorem shiftLeft_one_eq_add (c : Int32) : c <<< 1 = c + c := by
  apply Int32.toBitVec_inj.1
  have hone : BitVec.smod (Int32.toBitVec 1) 32 = 1#32 := by decide
  rw [Int32.toBitVec_shiftLeft, Int32.toBitVec_add, hone, BitVec.shiftLeft_eq']
  apply BitVec.eq_of_toNat_eq
  rw [BitVec.toNat_shiftLeft, BitVec.toNat_add, Nat.shiftLeft_eq]
  have htwo : (2 : ℕ) ^ (1#32).toNat = 2 := rfl
  rw [htwo, Nat.mul_two]

/-- The doubling, while it fits. -/
theorem toInt_shiftLeft_one {c : Int32} (h0 : 0 ≤ c.toInt) (h : 2 * c.toInt ≤ 2 ^ 31 - 1) :
    (c <<< 1).toInt = 2 * c.toInt := by
  rw [shiftLeft_one_eq_add, Int32.toInt_add, Int.bmod_eq_of_le (by omega) (by omega)]
  omega

theorem loop_init (hstart : start.Normal) (hms : 0 ≤ ms.toInt)
    (hsec : ¬ ((addTimespec start ms).sec = 0 ∧ 0 < ms.toInt)) :
    Loop start ms (.init start ms) where
  normal := hstart
  ok := by
    refine ⟨fun h0 => ⟨Nat.zero_le _, ?_⟩, fun _ => ⟨⟨rfl, rfl, ?_⟩, ?_⟩⟩
    · have hzero : ¬ 0 < ms.toInt := fun hpos => hsec ⟨h0, hpos⟩
      show timeLimit start ms ≤ start.instant
      unfold timeLimit
      omega
    · show waited 0 ≤ _
      unfold waited
      omega
    · show start.instant + waited 0 ≤ start.instant
      unfold waited
      omega
  used p hp := absurd hp List.not_mem_nil

theorem LoopOk.tick {t : Timespec} (h : LoopOk start ms s) (ht : s.clock.instant ≤ t.instant) :
    LoopOk start ms { s with clock := t } := by
  unfold LoopOk at h ⊢
  dsimp only
  split at h
  · rename_i hpc
    refine ⟨fun h0 => ?_, fun h0 => ?_⟩
    · have hlate := h.1 h0
      exact ⟨hlate.iterations, hlate.clock.trans ht⟩
    · obtain ⟨hon, hclock⟩ := h.2 h0
      exact ⟨⟨hon.final, hon.curr, hon.le⟩, hclock.trans ht⟩
  · obtain h | ⟨h0, k, hk, hon, hrest⟩ := h
    · exact .inl h
    · exact .inr ⟨h0, k, hk, ⟨hon.final, hon.curr, hon.le⟩, hrest⟩
  · exact ⟨h.1, fun hdone => (h.2 hdone).trans ht⟩
  · exact ⟨h.1, fun hb => (h.2 hb).trans ht⟩

theorem LoopOk.reply (h : LoopOk start ms s) : LoopOk start ms { s with done := true } := by
  unfold LoopOk at h ⊢
  dsimp only
  split at h
  · refine ⟨fun h0 => ⟨(h.1 h0).iterations, (h.1 h0).clock⟩, fun h0 => ?_⟩
    obtain ⟨hon, hclock⟩ := h.2 h0
    exact ⟨⟨hon.final, hon.curr, hon.le⟩, hclock⟩
  · obtain h | ⟨h0, k, hk, hon, hrest⟩ := h
    · exact .inl h
    · exact .inr ⟨h0, k, hk, ⟨hon.final, hon.curr, hon.le⟩, hrest⟩
  · exact ⟨h.1, fun hdone => absurd hdone.symm Bool.false_ne_true⟩
  · exact h

/-- The body, where the mark is set. -/
theorem body_of_sec_eq_zero {connected : Bool} (h : s.final.sec = 0) :
    s.body connected = { s with
      iterations := s.iterations + 1
      ch := if s.transmit then s.ch || connected else s.ch
      transmit := false
      pc := .left } := by
  unfold CallLoop.body
  exact if_pos h

/-- **The body**: what it waits for is not later than the end of the time,
and if it is not that end, all waits so far fit. -/
theorem Loop.body {connected : Bool} (h : Loop start ms s) (hstart : start.Normal)
    (hms : 0 ≤ ms.toInt) (hpc : s.pc = .head) : Loop start ms (s.body connected) := by
  have hok := h.ok
  unfold LoopOk at hok
  rw [hpc] at hok
  by_cases h0 : s.final.sec = 0
  · -- the mark of the last round is set, and the time is over
    have hlate := hok.1 h0
    rw [body_of_sec_eq_zero h0]
    refine ⟨h.normal, ⟨?_, fun _ => hlate.clock⟩, h.used⟩
    have := hlate.iterations
    show s.iterations + 1 ≤ 23
    omega
  unfold CallLoop.body
  dsimp only
  rw [if_neg h0]
  obtain ⟨hon, hclock⟩ := hok.2 h0
  have hk := le_of_waited_le hon.le
  have hnext : (addTimespec s.clock s.curr).instant =
      s.clock.instant + 1000 * 2 ^ s.iterations * 10 ^ 6 := by
    rw [instant_addTimespec, hon.curr]
  have hfinal : s.final.instant = timeLimit start ms := by
    rw [hon.final, instant_addTimespec, timeLimit]
  have hused : ∀ p ∈ (s.iterations, s.curr) :: s.used, Doubled p := by
    intro p hp
    obtain rfl | hp := List.mem_cons.1 hp
    · have := s.curr.toInt_lt
      have hcurr := hon.curr
      exact ⟨hcurr, by dsimp only; omega⟩
    · exact h.used p hp
  split
  · -- the last round, up to the end of the time
    rename_i hcmp
    refine ⟨h.normal, .inl ⟨rfl, ?_, hfinal⟩, hused⟩
    show s.iterations + 1 ≤ 22
    omega
  · -- the wait fits, so the sum of all waits does
    rename_i hcmp
    have hcurr : 0 ≤ s.curr.toInt := by
      rw [hon.curr]
      positivity
    have hle : (addTimespec s.clock s.curr).instant ≤ s.final.instant := by
      refine instant_le_of_not_cmpTimespec_pos (nsec_addTimespec h.normal.1 hcurr).2 ?_ hcmp
      rw [hon.final]
      exact (nsec_addTimespec hstart.1 hms).1
    have hsucc := waited_succ s.iterations
    refine ⟨h.normal, .inr ⟨h0, s.iterations, rfl, ⟨hon.final, hon.curr, hon.le⟩, ?_, ?_⟩, hused⟩
    · unfold timeLimit at hfinal
      omega
    · omega

/-- **The wait is over.** -/
theorem Loop.wake {retrans dead : Bool} {d : Timespec} (h : Loop start ms s)
    (hpc : s.pc = .waiting d) (hwait : s.done = true ∨ d.instant ≤ s.clock.instant) :
    Loop start ms (s.wake retrans dead) := by
  have hok := h.ok
  unfold LoopOk at hok
  rw [hpc] at hok
  have hiter : s.iterations ≤ 22 := by
    obtain ⟨-, hle, -⟩ | ⟨-, k, hk, -, hle, -⟩ := hok
    · exact hle
    · have := le_of_waited_le hle
      omega
  unfold CallLoop.wake
  split
  · rename_i hdone
    refine ⟨h.normal, ⟨?_, fun hno => ?_⟩, h.used⟩
    · show s.iterations ≤ 23
      omega
    · have hno : s.done = false := hno
      rw [hdone] at hno
      exact Bool.noConfusion hno
  · rename_i hdone
    have hclock := hwait.resolve_left hdone
    refine ⟨h.normal, ⟨fun h0 => ⟨hiter, ?_⟩, fun h0 => ?_⟩, h.used⟩
    · obtain ⟨-, -, hd⟩ | ⟨h0', -⟩ := hok
      · exact hd ▸ hclock
      · exact absurd h0 h0'
    · obtain ⟨h0', -⟩ | ⟨-, k, hk, hon, hle, hd⟩ := hok
      · exact absurd h0' h0
      have hk' := le_of_waited_le hle
      have hpow : (2 : ℤ) ^ (k + 1) ≤ 2 ^ 21 := pow_le_pow_right₀ (by decide) hk'
      have hcurr := hon.curr
      have hpos : (0 : ℤ) ≤ 2 ^ k := by positivity
      rw [pow_succ] at hpow
      refine ⟨⟨hon.final, ?_, ?_⟩, ?_⟩
      · show (s.curr <<< 1).toInt = 1000 * 2 ^ s.iterations
        rw [toInt_shiftLeft_one (by omega) (by omega), hk, pow_succ, hcurr]
        ring
      · show waited s.iterations ≤ _
        rw [hk]
        exact hle
      · show start.instant + waited s.iterations ≤ s.clock.instant
        rw [hk]
        exact hd.trans hclock

/-- **One step** keeps the invariant. -/
theorem Loop.step {retrans : Bool} {a : CallLoop.Act} (h : Loop start ms s) (hstart : start.Normal)
    (hms : 0 ≤ ms.toInt) (hs : s.step retrans a = some s') : Loop start ms s' := by
  rcases a with t | _ | connected | dead | _
  · unfold CallLoop.step at hs
    rw [Option.ite_none_right_eq_some] at hs
    obtain ⟨⟨hnormal, hle⟩, hs⟩ := hs
    obtain rfl := Option.some.inj hs
    exact ⟨hnormal, h.ok.tick hle, h.used⟩
  · obtain rfl := Option.some.inj hs
    exact ⟨h.normal, h.ok.reply, h.used⟩
  · unfold CallLoop.step at hs
    rw [Option.ite_none_right_eq_some] at hs
    obtain rfl := Option.some.inj hs.2
    exact h.body hstart hms hs.1
  · unfold CallLoop.step at hs
    dsimp only at hs
    split at hs
    · rename_i d hpc
      rw [Option.ite_none_right_eq_some] at hs
      obtain rfl := Option.some.inj hs.2
      exact h.wake hpc hs.1
    · exact absurd hs.symm (Option.some_ne_none s')
  · unfold CallLoop.step at hs
    rw [Option.ite_none_right_eq_some] at hs
    obtain ⟨hpc, hs⟩ := hs
    obtain rfl := Option.some.inj hs
    have hok := h.ok
    unfold LoopOk at hok
    rw [hpc] at hok
    refine ⟨h.normal, ⟨hok.1, fun hno => hok.2 ?_⟩, h.used⟩
    rw [Bool.not_eq_true'] at hno
    exact hno

theorem Loop.boundedLoop (h : Loop start ms s) : BoundedLoop start ms s := by
  have hok := h.ok
  unfold LoopOk at hok
  split at hok
  all_goals rename_i hpc
  · have hle : s.iterations ≤ 22 := by
      by_cases h0 : s.final.sec = 0
      · exact (hok.1 h0).iterations
      · have := le_of_waited_le (hok.2 h0).1.le
        omega
    refine ⟨by omega, fun h23 => by omega, h.used, fun hret => ?_⟩
    rw [hpc] at hret
    exact LoopPc.noConfusion hret
  · have hle : s.iterations ≤ 22 := by
      obtain ⟨-, hle, -⟩ | ⟨-, k, hk, -, hle, -⟩ := hok
      · exact hle
      · have := le_of_waited_le hle
        omega
    refine ⟨by omega, fun h23 => by omega, h.used, fun hret => ?_⟩
    rw [hpc] at hret
    exact LoopPc.noConfusion hret
  · refine ⟨hok.1, fun _ => .inl hpc, h.used, fun hret => ?_⟩
    rw [hpc] at hret
    exact LoopPc.noConfusion hret
  · rename_i b
    refine ⟨hok.1, fun _ => .inr ⟨b, hpc⟩, h.used, fun hret => hok.2 ?_⟩
    rw [hpc] at hret
    exact LoopPc.returned.inj hret

end

/-- Where the deadline is in second 0, the mark is found at once, and the
call returns at the time it began. -/
theorem not_bounded_of_sec_eq_zero {retrans : Bool} {start : Timespec} {ms : Int32}
    (hsec : (addTimespec start ms).sec = 0) (hpos : 0 < ms.toInt) :
    ¬ Along (CallLoop.step retrans) (BoundedLoop start ms) (.init start ms) [.body true, .ret] := by
  intro h
  have hexec : exec (CallLoop.step retrans) (.init start ms) [.body true, .ret] = some
      { CallLoop.init start ms with
        iterations := 1, ch := true, transmit := false, pc := .returned true } := by
    rw [exec_cons, CallLoop.step, if_pos (show (CallLoop.init start ms).pc = .head from rfl),
      body_of_sec_eq_zero hsec]
    rfl
  have hlimit : start.instant + ms.toInt * 10 ^ 6 ≤ start.instant := (h.last hexec).timeout rfl
  omega

/-- **The loop is bounded, and the call does not time out early, exactly
where its deadline does not fall on the mark.** For every timeout of an
`int` that is not negative and every first reading of the clock: in every
run, with the clock going on in any way, connections that fail and waits
that end because the call is done or their deadline has passed, the loop
ends after 23 iterations at most, no deadline is computed from a value
that overflowed, and `timeout_failure` is returned only when the time is
over, if and only if the deadline is not in second 0, or there is no time
to wait. -/
theorem boundedLoop_iff (retrans : Bool) {start : Timespec} (hstart : start.Normal) {ms : Int32}
    (hms : 0 ≤ ms.toInt) :
    (∀ acts, Along (CallLoop.step retrans) (BoundedLoop start ms) (.init start ms) acts) ↔
      ¬ ((addTimespec start ms).sec = 0 ∧ 0 < ms.toInt) := by
  constructor
  · rintro h ⟨hsec, hpos⟩
    exact not_bounded_of_sec_eq_zero hsec hpos (h _)
  · intro hsec acts
    exact along_invariant (fun _ _ _ h hs => h.step hstart hms hs) (fun _ h => h.boundedLoop)
      (loop_init hstart hms hsec)

/-- A call with three seconds to wait. -/
theorem boundedLoop_three_seconds :
    (addTimespec ⟨1400000000, 0⟩ 3000).sec = 1400000003 ∧
      ∀ acts, Along (CallLoop.step true) (BoundedLoop ⟨1400000000, 0⟩ 3000)
        (.init ⟨1400000000, 0⟩ 3000) acts := by
  have hsec : (addTimespec ⟨1400000000, 0⟩ 3000).sec = 1400000003 := by
    unfold addTimespec Timespec.carry
    rfl
  refine ⟨hsec, (boundedLoop_iff true (by decide) (by decide)).2 fun h => ?_⟩
  rw [hsec] at h
  exact absurd h.1 (by decide)

/-- A call with half a second to wait, made at the epoch, times out at
once. -/
theorem not_boundedLoop_at_epoch :
    ¬ ∀ acts, Along (CallLoop.step true) (BoundedLoop ⟨0, 0⟩ 500) (.init ⟨0, 0⟩ 500) acts := by
  intro h
  refine not_bounded_of_sec_eq_zero ?_ (by decide) (h _)
  unfold addTimespec Timespec.carry
  rfl

end Yfs
