import Yfs.Common.Run
import Yfs.Poll.Select

/-!
# Two ways to watch descriptors

`EPollAIO` of `rpc/pollmgr.cc` is to be a replacement of `SelectAIO`: it
keeps a status word for each descriptor and tells the kernel of each
change. The two return the same from every `unwatch_fd`. They do not agree
on `is_watched`: `CB_MASK` is the complement of the flags, so that what is
left of a status is 0, and `EPollAIO` answers no to every question.
`aioAgree_iff` says that the two agree exactly as long as nothing is watched.
-/

namespace Yfs

open Common

/-- The flag as an `int`. -/
def PollFlag.bits : PollFlag → Int32
  | .rdonly => 0x1
  | .wronly => 0x10
  | .rdwr => 0x11

/-- `CB_MASK`. -/
def cbMask : Int32 := ~~~0x11

/-- `EPOLLIN`. -/
def epollIn : UInt32 := 0x1

/-- `EPOLLOUT`. -/
def epollOut : UInt32 := 0x4

/-- `EPOLLET`. -/
def epollEt : UInt32 := 0x80000000

/-- The operations of `epoll_ctl`. -/
inductive EpollOp where
  | add
  | mod
  | del
deriving DecidableEq

/-- `epoll_ctl`, on the descriptors that are registered and their events:
it fails, with `EEXIST` or `ENOENT`, where the operation does not match. -/
def epollCtl (interest : ℕ → Option UInt32) (op : EpollOp) (fd : ℕ) (events : UInt32) :
    Option (ℕ → Option UInt32) :=
  match op with
  | .add =>
    if (interest fd).isSome then none else some (Function.update interest fd (some events))
  | .mod =>
    if (interest fd).isNone then none else some (Function.update interest fd (some events))
  | .del => if (interest fd).isNone then none else some (Function.update interest fd none)

/-- `EPollAIO`. -/
structure EPollAio where
  /-- `fdstatus_`. -/
  fdstatus : ℕ → Int32
  /-- What `pollfd_` stands for in the kernel. -/
  interest : ℕ → Option UInt32

namespace EPollAio

/-- The constructor. -/
def new : EPollAio := ⟨fun _ => 0, fun _ => none⟩

/-- `ev.events`, for a status. -/
def events (status : Int32) : UInt32 :=
  let e := epollEt
  let e := if status &&& PollFlag.bits .rdonly ≠ 0 then e ||| epollIn else e
  if status &&& PollFlag.bits .wronly ≠ 0 then e ||| epollOut else e

/-- `EPollAIO::watch_fd`. -/
def watchFd (s : EPollAio) (fd : ℕ) (flag : PollFlag) : Option EPollAio :=
  if ¬ fd < maxPollFds then none
  else
    let op : EpollOp := if s.fdstatus fd ≠ 0 then .mod else .add
    let status := s.fdstatus fd ||| flag.bits
    if flag = .rdwr ∧ events status ≠ epollEt ||| epollIn ||| epollOut then none
    else
      (epollCtl s.interest op fd (events status)).map fun i =>
        ⟨Function.update s.fdstatus fd status, i⟩

/-- `EPollAIO::unwatch_fd`. -/
def unwatchFd (s : EPollAio) (fd : ℕ) (flag : PollFlag) : Option (EPollAio × Bool) :=
  if ¬ fd < maxPollFds then none
  else
    let status := s.fdstatus fd &&& ~~~flag.bits
    let op : EpollOp := if status ≠ 0 then .mod else .del
    if flag = .rdwr ∧ op ≠ .del then none
    else
      (epollCtl s.interest op fd (events status)).map fun i =>
        (⟨Function.update s.fdstatus fd status, i⟩, decide (op = .del))

/-- `EPollAIO::is_watched`. -/
def isWatched (s : EPollAio) (fd : ℕ) (flag : PollFlag) : Option Bool :=
  if ¬ fd < maxPollFds then none else some (s.fdstatus fd &&& cbMask == flag.bits)

end EPollAio

/-! ## The same calls on both -/

/-- A call. -/
inductive AioCall where
  | watch (fd : ℕ) (flag : PollFlag)
  | unwatch (fd : ℕ) (flag : PollFlag)
deriving DecidableEq

/-- Both, with what their calls of `unwatch_fd` have returned. -/
structure AioPair where
  select : SelectAio
  epoll : EPollAio
  results : List (Bool × Bool)

namespace AioPair

def new (pipefd : ℕ) : AioPair := ⟨.new pipefd, .new, []⟩

def step (p : AioPair) : AioCall → Option AioPair
  | .watch fd flag =>
    (p.epoll.watchFd fd flag).map fun e => { p with select := p.select.watchFd fd flag, epoll := e }
  | .unwatch fd flag =>
    (p.epoll.unwatchFd fd flag).map fun e =>
      ⟨(p.select.unwatchFd fd flag).1, e.1, ((p.select.unwatchFd fd flag).2, e.2) :: p.results⟩

/-- They have returned the same, and know the same of every descriptor that
is small enough, but that of the pipe, which is of no concern to a
caller. -/
def Agree (p : AioPair) : Prop :=
  (∀ r ∈ p.results, r.1 = r.2) ∧
    ∀ fd, fd < maxPollFds → fd ≠ p.select.pipefd → ∀ flag,
      p.epoll.isWatched fd flag = some (p.select.isWatched fd flag)

end AioPair

/-! ## What is registered -/

/-- Whether a descriptor is registered for reading, and for writing. -/
abbrev Registry := ℕ → Bool × Bool

/-- What a call is for. -/
def Registry.after (m : Registry) : AioCall → Registry
  | .watch fd flag => Function.update m fd ((m fd).1 || flag.rd, (m fd).2 || flag.wr)
  | .unwatch fd flag => Function.update m fd ((m fd).1 && !flag.rd, (m fd).2 && !flag.wr)

/-- What is registered after some calls. -/
def registered (calls : List AioCall) : Registry :=
  calls.foldl Registry.after fun _ => (false, false)

/-- The descriptors are small enough, and not that of the pipe, which is
open all the time; and what is unwatched is watched. -/
def Registry.Allows (pipefd : ℕ) (m : Registry) : AioCall → Prop
  | .watch fd _ => fd < maxPollFds ∧ fd ≠ pipefd
  | .unwatch fd _ => fd < maxPollFds ∧ fd ≠ pipefd ∧ m fd ≠ (false, false)

/-- Calls as callers make them. -/
def ProperFrom (pipefd : ℕ) (m : Registry) : List AioCall → Prop
  | [] => True
  | c :: calls => m.Allows pipefd c ∧ ProperFrom pipefd (m.after c) calls

def Proper (pipefd : ℕ) (calls : List AioCall) : Prop :=
  ProperFrom pipefd (fun _ => (false, false)) calls

/-! ## Both keep the registry -/

/-- The status word of a registration. -/
def statusOf (r : Bool × Bool) : Int32 := (if r.1 then 0x1 else 0) ||| if r.2 then 0x10 else 0

/-- The invariant: both know what is registered, and have agreed so far. -/
structure Knows (pipefd : ℕ) (m : Registry) (p : AioPair) : Prop where
  pipe : p.select.pipefd = pipefd
  small : ∀ fd, m fd ≠ (false, false) → fd < maxPollFds
  rd : ∀ fd, fd ≠ pipefd → p.select.rfds fd = (m fd).1
  wr : ∀ fd, fd ≠ pipefd → p.select.wfds fd = (m fd).2
  status : ∀ fd, p.epoll.fdstatus fd = statusOf (m fd)
  interest : ∀ fd, (p.epoll.interest fd).isSome ↔ m fd ≠ (false, false)
  results : ∀ r ∈ p.results, r.1 = r.2

section

variable (r : Bool × Bool) (flag : PollFlag)

theorem statusOf_eq_zero_iff : statusOf r = 0 ↔ r = (false, false) := by
  obtain ⟨a, b⟩ := r
  cases a <;> cases b <;> decide

theorem decide_statusOf : decide (statusOf r = 0) = (!r.1 && !r.2) := by
  obtain ⟨a, b⟩ := r
  cases a <;> cases b <;> decide

theorem statusOf_watch :
    statusOf r ||| flag.bits = statusOf (r.1 || flag.rd, r.2 || flag.wr) := by
  obtain ⟨a, b⟩ := r
  cases a <;> cases b <;> cases flag <;> decide

theorem statusOf_unwatch :
    statusOf r &&& ~~~flag.bits = statusOf (r.1 && !flag.rd, r.2 && !flag.wr) := by
  obtain ⟨a, b⟩ := r
  cases a <;> cases b <;> cases flag <;> decide

/-- The mask takes all flags away. -/
theorem statusOf_mask : statusOf r &&& cbMask = 0 := by
  obtain ⟨a, b⟩ := r
  cases a <;> cases b <;> decide

theorem events_rdwr :
    EPollAio.events (statusOf (r.1 || PollFlag.rd .rdwr, r.2 || PollFlag.wr .rdwr)) =
      epollEt ||| epollIn ||| epollOut := by
  obtain ⟨a, b⟩ := r
  cases a <;> cases b <;> decide

theorem bits_ne_zero : flag.bits ≠ 0 := by
  cases flag <;> decide

end

/-- An operation that matches the registration succeeds. -/
theorem epollCtl_eq_some {interest : ℕ → Option UInt32} {op : EpollOp} {fd : ℕ} {ev : UInt32}
    (h : (interest fd).isSome ↔ op ≠ .add) :
    epollCtl interest op fd ev =
      some (Function.update interest fd (if op = .del then none else some ev)) := by
  have hnone : op ≠ .add → ¬ (interest fd).isNone = true := by
    intro hop
    rw [Option.isNone_iff_eq_none, ← ne_eq, Option.ne_none_iff_isSome]
    exact h.2 hop
  cases op with
  | add =>
    have hsome : ¬ (interest fd).isSome = true := fun hs => h.1 hs rfl
    rw [epollCtl, if_neg hsome, if_neg (by decide)]
  | mod => rw [epollCtl, if_neg (hnone (by decide)), if_neg (by decide)]
  | del => rw [epollCtl, if_neg (hnone (by decide)), if_pos rfl]

section

variable {pipefd fd : ℕ} {flag : PollFlag} {m : Registry} {p : AioPair}

/-- The registration of one descriptor is changed in both. -/
theorem Knows.update (h : Knows pipefd m p) {r : Bool × Bool} {s : SelectAio}
    {e : Option UInt32} {results : List (Bool × Bool)} (hfd : fd < maxPollFds)
    (hpipe : s.pipefd = p.select.pipefd)
    (hrd : s.rfds = Function.update p.select.rfds fd r.1)
    (hwr : s.wfds = Function.update p.select.wfds fd r.2) (he : e.isSome ↔ r ≠ (false, false))
    (hres : ∀ x ∈ results, x.1 = x.2) :
    Knows pipefd (Function.update m fd r)
      ⟨s, ⟨Function.update p.epoll.fdstatus fd (statusOf r),
        Function.update p.epoll.interest fd e⟩, results⟩ := by
  refine ⟨hpipe.trans h.pipe, fun k hk => ?_, fun k hk => ?_, fun k hk => ?_, fun k => ?_,
    fun k => ?_, hres⟩
  · by_cases hkfd : k = fd
    · exact hkfd ▸ hfd
    · rw [Function.update_of_ne hkfd] at hk
      exact h.small k hk
  · rw [hrd]
    by_cases hkfd : k = fd
    · rw [hkfd, Function.update_self, Function.update_self]
    · rw [Function.update_of_ne hkfd, Function.update_of_ne hkfd, h.rd k hk]
  · rw [hwr]
    by_cases hkfd : k = fd
    · rw [hkfd, Function.update_self, Function.update_self]
    · rw [Function.update_of_ne hkfd, Function.update_of_ne hkfd, h.wr k hk]
  · dsimp only
    by_cases hkfd : k = fd
    · rw [hkfd, Function.update_self, Function.update_self]
    · rw [Function.update_of_ne hkfd, Function.update_of_ne hkfd, h.status k]
  · dsimp only
    by_cases hkfd : k = fd
    · rw [hkfd, Function.update_self, Function.update_self]
      exact he
    · rw [Function.update_of_ne hkfd, Function.update_of_ne hkfd, h.interest k]

theorem Knows.watchFd (h : Knows pipefd m p) (hfd : fd < maxPollFds) (hpipe : fd ≠ pipefd) :
    ∃ q, p.step (.watch fd flag) = some q ∧ Knows pipefd (m.after (.watch fd flag)) q := by
  have hev : ¬ (flag = .rdwr ∧
      EPollAio.events (statusOf ((m fd).1 || flag.rd, (m fd).2 || flag.wr)) ≠
        epollEt ||| epollIn ||| epollOut) := by
    rintro ⟨rfl, hne⟩
    exact hne (events_rdwr (m fd))
  -- whether the descriptor is registered is told by its status
  have hop : (p.epoll.interest fd).isSome ↔
      (if statusOf (m fd) ≠ 0 then EpollOp.mod else .add) ≠ .add := by
    rw [h.interest fd, Ne, ← statusOf_eq_zero_iff]
    by_cases h0 : statusOf (m fd) = 0
    · simp [h0]
    · simp [h0]
  have hstep : p.epoll.watchFd fd flag = some
      ⟨Function.update p.epoll.fdstatus fd (statusOf ((m fd).1 || flag.rd, (m fd).2 || flag.wr)),
        Function.update p.epoll.interest fd
          (some (EPollAio.events (statusOf ((m fd).1 || flag.rd, (m fd).2 || flag.wr))))⟩ := by
    unfold EPollAio.watchFd
    dsimp only
    rw [if_neg (not_not.2 hfd), h.status fd, statusOf_watch, if_neg hev, epollCtl_eq_some hop,
      if_neg (by split <;> decide), Option.map_some]
  refine ⟨_, by rw [AioPair.step, hstep, Option.map_some], ?_⟩
  refine h.update hfd ?_ ?_ ?_ ?_ h.results
  · cases flag <;> rfl
  · rw [SelectAio.rfds_watchFd, h.rd fd hpipe]
  · rw [SelectAio.wfds_watchFd, h.wr fd hpipe]
  · cases flag <;> simp [PollFlag.rd, PollFlag.wr]

theorem Knows.unwatchFd (h : Knows pipefd m p) (hfd : fd < maxPollFds) (hpipe : fd ≠ pipefd)
    (hreg : m fd ≠ (false, false)) :
    ∃ q, p.step (.unwatch fd flag) = some q ∧ Knows pipefd (m.after (.unwatch fd flag)) q := by
  -- the assertion on `CB_RDWR` holds, as nothing is left then
  have hdel : ¬ (flag = .rdwr ∧
      (if statusOf ((m fd).1 && !flag.rd, (m fd).2 && !flag.wr) ≠ 0 then EpollOp.mod else .del) ≠
        .del) := by
    rintro ⟨rfl, hne⟩
    exact hne (by simp [PollFlag.rd, PollFlag.wr, statusOf])
  have hop : (p.epoll.interest fd).isSome ↔
      (if statusOf ((m fd).1 && !flag.rd, (m fd).2 && !flag.wr) ≠ 0 then EpollOp.mod else .del) ≠
        .add :=
    iff_of_true ((h.interest fd).2 hreg) (by split <;> decide)
  have hstep : p.epoll.unwatchFd fd flag = some
      (⟨Function.update p.epoll.fdstatus fd (statusOf ((m fd).1 && !flag.rd, (m fd).2 && !flag.wr)),
        Function.update p.epoll.interest fd
          (if statusOf ((m fd).1 && !flag.rd, (m fd).2 && !flag.wr) ≠ 0 then
            some (EPollAio.events (statusOf ((m fd).1 && !flag.rd, (m fd).2 && !flag.wr)))
          else none)⟩,
        decide (statusOf ((m fd).1 && !flag.rd, (m fd).2 && !flag.wr) = 0)) := by
    unfold EPollAio.unwatchFd
    dsimp only
    rw [if_neg (not_not.2 hfd), h.status fd, statusOf_unwatch, if_neg hdel, epollCtl_eq_some hop,
      Option.map_some]
    by_cases h0 : statusOf ((m fd).1 && !flag.rd, (m fd).2 && !flag.wr) = 0
    · rw [if_neg (not_not.2 h0), if_neg (not_not.2 h0), if_pos rfl, h0]
      rfl
    · rw [if_pos h0, if_pos h0, if_neg (by decide), decide_eq_false h0]
      rfl
  -- both return whether anything of the descriptor is left
  have hsame : (p.select.unwatchFd fd flag).2 =
      decide (statusOf ((m fd).1 && !flag.rd, (m fd).2 && !flag.wr) = 0) := by
    rw [SelectAio.unwatchFd_snd, h.rd fd hpipe, h.wr fd hpipe]
    exact (decide_statusOf ((m fd).1 && !flag.rd, (m fd).2 && !flag.wr)).symm
  refine ⟨_, by rw [AioPair.step, hstep, Option.map_some], h.update hfd ?_ ?_ ?_ ?_ ?_⟩
  · exact SelectAio.pipefd_unwatchFd _ _ _
  · rw [SelectAio.rfds_unwatchFd, h.rd fd hpipe]
  · rw [SelectAio.wfds_unwatchFd, h.wr fd hpipe]
  · by_cases h0 : statusOf ((m fd).1 && !flag.rd, (m fd).2 && !flag.wr) = 0
    · rw [if_neg (not_not.2 h0)]
      exact iff_of_false Bool.false_ne_true (not_not.2 ((statusOf_eq_zero_iff _).1 h0))
    · rw [if_pos h0]
      exact iff_of_true rfl (mt (statusOf_eq_zero_iff _).2 h0)
  · intro x hx
    rcases List.mem_cons.1 hx with rfl | hx
    · exact hsame
    · exact h.results x hx

end

/-! ## Runs -/

section

variable {pipefd : ℕ} {m : Registry} {p : AioPair}

theorem knows_new (pipefd : ℕ) : Knows pipefd (fun _ => (false, false)) (.new pipefd) where
  pipe := rfl
  small _ h := absurd rfl h
  rd fd hfd := by simp [AioPair.new, SelectAio.new, hfd]
  wr _ _ := rfl
  status _ := rfl
  interest _ := iff_of_false Bool.false_ne_true (fun h => h rfl)
  results _ h := absurd h List.not_mem_nil

/-- **Proper calls** fail no assertion, and leave both with what is
registered then. -/
theorem Knows.exec {calls : List AioCall} (h : Knows pipefd m p)
    (hproper : ProperFrom pipefd m calls) :
    ∃ q, exec AioPair.step p calls = some q ∧ Knows pipefd (calls.foldl Registry.after m) q := by
  induction calls generalizing m p with
  | nil => exact ⟨p, rfl, h⟩
  | cons c calls ih =>
    obtain ⟨hc, hproper⟩ := hproper
    have hstep : ∃ q, p.step c = some q ∧ Knows pipefd (m.after c) q := by
      rcases c with ⟨fd, flag⟩ | ⟨fd, flag⟩
      · exact h.watchFd hc.1 hc.2
      · exact h.unwatchFd hc.1 hc.2.1 hc.2.2
    obtain ⟨q, hq, hknows⟩ := hstep
    obtain ⟨r, hr, hlast⟩ := ih hknows hproper
    exact ⟨r, exec_cons_eq_some.2 ⟨q, hq, hr⟩, hlast⟩

/-- `EPollAIO` never says that something is watched. -/
theorem Knows.epoll_isWatched (h : Knows pipefd m p) {fd : ℕ} (hfd : fd < maxPollFds)
    (flag : PollFlag) : p.epoll.isWatched fd flag = some false := by
  rw [EPollAio.isWatched, if_neg (not_not.2 hfd), h.status fd, statusOf_mask, Option.some_inj,
    beq_eq_false_iff_ne]
  exact (bits_ne_zero flag).symm

theorem Knows.agrees_iff (h : Knows pipefd m p) :
    p.Agree ↔ ∀ fd, fd ≠ pipefd → m fd = (false, false) := by
  constructor
  · rintro ⟨-, hsame⟩ fd hfd
    by_contra hreg
    have hsmall := h.small fd hreg
    have hrd := hsame fd hsmall (h.pipe ▸ hfd) .rdonly
    have hwr := hsame fd hsmall (h.pipe ▸ hfd) .wronly
    rw [h.epoll_isWatched hsmall, Option.some_inj] at hrd hwr
    exact hreg (Prod.ext ((h.rd fd hfd).symm.trans hrd.symm) ((h.wr fd hfd).symm.trans hwr.symm))
  · intro hnone
    refine ⟨h.results, fun fd hsmall hfd flag => ?_⟩
    rw [h.pipe] at hfd
    rw [h.epoll_isWatched hsmall, SelectAio.isWatched_eq, h.rd fd hfd, h.wr fd hfd, hnone fd hfd]
    cases flag <;> rfl

end

/-- **When the two agree.** After any proper calls, none of which fails an
assertion, they have returned the same and know the same if and only if
no descriptor is left registered. -/
theorem aioAgree_iff (pipefd : ℕ) (calls : List AioCall) (hproper : Proper pipefd calls) :
    ∃ p, exec AioPair.step (.new pipefd) calls = some p ∧
      (p.Agree ↔ ∀ fd, fd ≠ pipefd → registered calls fd = (false, false)) := by
  obtain ⟨p, hp, hknows⟩ := (knows_new pipefd).exec hproper
  exact ⟨p, hp, hknows.agrees_iff⟩

/-- A descriptor is watched for both, and then no more. -/
theorem agree_watched_and_unwatched :
    Proper 3 [.watch 5 .rdwr, .unwatch 5 .wronly, .unwatch 5 .rdonly] ∧
      ∃ p, exec AioPair.step (.new 3) [.watch 5 .rdwr, .unwatch 5 .wronly, .unwatch 5 .rdonly] =
        some p ∧ p.Agree := by
  have hproper : Proper 3 [.watch 5 .rdwr, .unwatch 5 .wronly, .unwatch 5 .rdonly] := by
    refine ⟨⟨by decide, by decide⟩, ⟨by decide, by decide, by decide⟩, ⟨by decide, by decide, ?_⟩,
      trivial⟩
    decide
  refine ⟨hproper, ?_⟩
  obtain ⟨p, hp, hagree⟩ := aioAgree_iff 3 _ hproper
  refine ⟨p, hp, hagree.2 fun fd _ => ?_⟩
  by_cases hfd : fd = 5
  · subst hfd
    rfl
  · simp [registered, Registry.after, hfd]

/-- `SelectAIO` knows that a descriptor is watched, and `EPollAIO` does
not. -/
theorem not_agree_one_watched :
    Proper 3 [.watch 5 .rdonly] ∧
      ∃ p, exec AioPair.step (.new 3) [.watch 5 .rdonly] = some p ∧ ¬ p.Agree := by
  refine ⟨⟨⟨by decide, by decide⟩, trivial⟩, _, rfl, fun h => ?_⟩
  have hsame := h.2 5 (by decide) (by decide) .rdonly
  exact absurd hsame (by decide)

end Yfs
