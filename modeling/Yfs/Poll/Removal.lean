import Yfs.Common.Pick
import Yfs.Common.Run
import Yfs.Poll.Manager

/-!
# The promise of `block_remove_fd`

When `block_remove_fd(fd)` returns, no callback for `fd` is to be running,
and none to start again. The wait in it is not in a loop, and a wait on a
condition variable may return for no reason. `quiet_iff` says that this
is all that can go wrong: the promise is kept exactly where no wait that
was not signalled returns in the middle of a callback for its descriptor.
In particular one flag and one broadcast do for all the threads that wait.
-/

namespace Yfs

open Common

/-- The poll manager, with a record of the removals. -/
structure Removals (κ : Type) where
  mgr : PollMgr κ
  /-- The descriptors whose removal has begun. -/
  started : List ℕ
  /-- Those for which `block_remove_fd` has returned. -/
  returned : List ℕ

/-- What can happen. -/
inductive RemovalAct (κ : Type) where
  /-- A thread calls `add_callback`. -/
  | add (fd : ℕ) (flag : PollFlag) (ch : κ)
  /-- A thread calls `del_callback`. -/
  | del (fd : ℕ) (flag : PollFlag)
  /-- A thread calls `block_remove_fd`. -/
  | remove (fd : ℕ)
  /-- The wait of the `k`-th thread returns, signalled or not. -/
  | back (k : ℕ)
  /-- The thread of the manager goes on; `rd` and `wr` are ready. -/
  | poll (rd wr : ℕ → Bool)

namespace Removals

variable {κ : Type} [DecidableEq κ]

/-- The start. -/
def new (pipefd : ℕ) : Removals κ := ⟨.new pipefd, [], []⟩

/-- One step. No thread adds a callback for a descriptor whose removal has
begun. -/
def step (s : Removals κ) : RemovalAct κ → Option (Removals κ)
  | .add fd flag ch =>
    if fd ∈ s.started then none
    else (s.mgr.addCallback fd flag ch).map fun m => { s with mgr := m }
  | .del fd flag => some { s with mgr := s.mgr.delCallback fd flag }
  | .remove fd => some { s with mgr := s.mgr.blockRemoveFd fd, started := fd :: s.started }
  | .back k =>
    s.mgr.removers[k]?.map fun r =>
      { s with
        mgr := s.mgr.removed r.fd (s.mgr.removers.eraseIdx k)
        returned := r.fd :: s.returned }
  | .poll rd wr => some { s with mgr := s.mgr.poll rd wr }

end Removals

variable {κ : Type}

/-- The promise: no callback for a descriptor that was removed. -/
def Quiet (s : Removals κ) : Prop := ∀ fd ∈ s.returned, ∀ kind, ¬ s.mgr.pc.Calls kind fd

/-- A wait that returns without a broadcast does not do so in the middle
of a callback for its descriptor. -/
def WakesClear (s : Removals κ) : RemovalAct κ → Prop
  | .back k => ∀ r, s.mgr.removers[k]? = some r → r.signalled = false →
      ∀ kind, ¬ s.mgr.pc.Calls kind r.fd
  | _ => True

/-! ## The invariant -/

/-- What is known of the descriptors that are removed. -/
structure Retired (s : Removals κ) : Prop where
  /-- Nothing of them is watched, -/
  unwatched : ∀ fd ∈ s.started, ∀ kind, s.mgr.aio.watches kind fd = false
  waiting : ∀ r ∈ s.mgr.removers, r.fd ∈ s.started
  began : ∀ fd ∈ s.returned, fd ∈ s.started
  /-- and after the broadcast nothing of them is in the round. -/
  signalled : ∀ r ∈ s.mgr.removers, r.signalled = true → ∀ kind, ¬ s.mgr.pc.Due kind r.fd
  gone : ∀ fd ∈ s.returned, s.mgr.callbacks fd = none
  quiet : Quiet s

theorem retired_new (pipefd : ℕ) : Retired (.new pipefd : Removals κ) where
  unwatched _ h := absurd h List.not_mem_nil
  waiting _ h := absurd h List.not_mem_nil
  began _ h := absurd h List.not_mem_nil
  signalled _ h := absurd h List.not_mem_nil
  gone _ h := absurd h List.not_mem_nil
  quiet _ h := absurd h List.not_mem_nil

section

variable {s s' : Removals κ} {fd : ℕ} {flag : PollFlag}

/-- A descriptor that is not watched stays so, whatever is unwatched. -/
theorem watches_unwatchFd {a : SelectAio} {kind : CbKind} {k : ℕ}
    (h : a.watches kind k = false) : (a.unwatchFd fd flag).1.watches kind k = false := by
  rcases kind with _ | _
  · change (a.unwatchFd fd flag).1.rfds k = false
    rw [SelectAio.rfds_unwatchFd]
    by_cases hk : k = fd
    · rw [hk, Function.update_self, ← hk, show a.rfds k = false from h, Bool.false_and]
    · rw [Function.update_of_ne hk]
      exact h
  · change (a.unwatchFd fd flag).1.wfds k = false
    rw [SelectAio.wfds_unwatchFd]
    by_cases hk : k = fd
    · rw [hk, Function.update_self, ← hk, show a.wfds k = false from h, Bool.false_and]
    · rw [Function.update_of_ne hk]
      exact h

/-- After `unwatch_fd(fd, CB_RDWR)` nothing of `fd` is watched. -/
theorem watches_unwatchFd_rdwr (a : SelectAio) (kind : CbKind) :
    (a.unwatchFd fd .rdwr).1.watches kind fd = false := by
  rcases kind with _ | _
  · change (a.unwatchFd fd .rdwr).1.rfds fd = false
    rw [SelectAio.rfds_unwatchFd, Function.update_self]
    exact Bool.and_false _
  · change (a.unwatchFd fd .rdwr).1.wfds fd = false
    rw [SelectAio.wfds_unwatchFd, Function.update_self]
    exact Bool.and_false _

/-- Nothing else is watched, but the descriptor itself. -/
theorem watches_watchFd {a : SelectAio} {kind : CbKind} {k : ℕ} (hk : k ≠ fd) :
    (a.watchFd fd flag).watches kind k = a.watches kind k := by
  rcases kind with _ | _
  · change (a.watchFd fd flag).rfds k = a.rfds k
    rw [SelectAio.rfds_watchFd, Function.update_of_ne hk]
  · change (a.watchFd fd flag).wfds k = a.wfds k
    rw [SelectAio.wfds_watchFd, Function.update_of_ne hk]

theorem Retired.del (h : Retired s) :
    Retired { s with mgr := s.mgr.delCallback fd flag } where
  unwatched k hk kind := watches_unwatchFd (h.unwatched k hk kind)
  waiting := h.waiting
  began := h.began
  signalled := h.signalled
  gone k hk := by
    unfold PollMgr.delCallback
    dsimp only
    split
    · by_cases hkfd : k = fd
      · rw [hkfd, Function.update_self]
      · rw [Function.update_of_ne hkfd, h.gone k hk]
    · exact h.gone k hk
  quiet := h.quiet

theorem Retired.remove (h : Retired s) :
    Retired { s with mgr := s.mgr.blockRemoveFd fd, started := fd :: s.started } where
  unwatched k hk kind := by
    rcases List.mem_cons.1 hk with rfl | hk
    · exact watches_unwatchFd_rdwr s.mgr.aio kind
    · exact watches_unwatchFd (h.unwatched k hk kind)
  waiting r hr := by
    rcases List.mem_append.1 hr with hr | hr
    · exact List.mem_cons_of_mem _ (h.waiting r hr)
    · rw [List.mem_singleton.1 hr]
      exact List.mem_cons_self
  began k hk := List.mem_cons_of_mem _ (h.began k hk)
  signalled r hr hsig := by
    rcases List.mem_append.1 hr with hr | hr
    · exact h.signalled r hr hsig
    · rw [List.mem_singleton.1 hr] at hsig
      exact absurd hsig Bool.false_ne_true
  gone := h.gone
  quiet := h.quiet

/-- **A wait returns.** Where it was signalled the round has nothing of
the descriptor, and where it was not, `hclear` says so of the callback. -/
theorem Retired.back (h : Retired s) {r : Remover} {rest : List Remover}
    (hr : r ∈ s.mgr.removers) (hrest : ∀ q ∈ rest, q ∈ s.mgr.removers)
    (hclear : r.signalled = false → ∀ kind, ¬ s.mgr.pc.Calls kind r.fd) :
    Retired { s with mgr := s.mgr.removed r.fd rest, returned := r.fd :: s.returned } where
  unwatched := h.unwatched
  waiting q hq := h.waiting q (hrest q hq)
  began k hk := by
    rcases List.mem_cons.1 hk with rfl | hk
    · exact h.waiting r hr
    · exact h.began k hk
  signalled q hq := h.signalled q (hrest q hq)
  gone k hk := by
    change Function.update s.mgr.callbacks r.fd none k = none
    by_cases hkr : k = r.fd
    · rw [hkr, Function.update_self]
    · rw [Function.update_of_ne hkr]
      exact h.gone k ((List.mem_cons.1 hk).resolve_left hkr)
  quiet k hk kind := by
    rcases List.mem_cons.1 hk with rfl | hk
    · by_cases hsig : r.signalled = true
      · exact fun hcalls => h.signalled r hr hsig kind hcalls.due
      · exact hclear (Bool.eq_false_iff.2 hsig) kind
    · exact h.quiet k hk kind

/-- **The thread goes on.** What comes into a round is watched, so nothing
of a descriptor that is removed does; and what is in it from before is
not called, as the callback is gone. -/
theorem Retired.poll (h : Retired s) (rd wr : ℕ → Bool) :
    Retired { s with mgr := s.mgr.poll rd wr } := by
  obtain ⟨haio, hcallbacks⟩ := s.mgr.poll_keeps rd wr
  have hwaiting : ∀ r ∈ (s.mgr.poll rd wr).removers, r.fd ∈ s.started := by
    intro r hr
    rcases s.mgr.removers_poll rd wr with hsame | ⟨-, hsame⟩
    · rw [hsame] at hr
      exact h.waiting r hr
    · rw [hsame] at hr
      obtain ⟨q, hq, rfl⟩ := List.mem_map.1 hr
      exact h.waiting q hq
  refine ⟨?_, hwaiting, h.began, ?_, ?_, ?_⟩
  · dsimp only
    rw [haio]
    exact h.unwatched
  · intro r hr hsig kind hdue
    rcases s.mgr.removers_poll rd wr with hsame | ⟨hpc, -⟩
    · rw [hsame] at hr
      rcases PollMgr.due_of_poll hdue with hold | ⟨-, hwatched⟩
      · exact h.signalled r hr hsig kind hold
      · -- what comes in is watched, and a descriptor that waits is not
        rw [h.unwatched r.fd (h.waiting r hr) kind] at hwatched
        exact absurd hwatched Bool.false_ne_true
    · -- the broadcast is where a new round begins
      change (s.mgr.poll rd wr).pc.Due kind r.fd at hdue
      rw [hpc] at hdue
      exact hdue
  · dsimp only
    rw [hcallbacks]
    exact h.gone
  · intro k hk kind hcalls
    have hsome := PollMgr.callbacks_of_calls hcalls
    rw [h.gone k hk] at hsome
    exact absurd hsome Bool.false_ne_true

end

/-! ## Runs -/

section

variable [DecidableEq κ] {s s' : Removals κ} {a : RemovalAct κ}

theorem Retired.add (h : Retired s) {fd : ℕ} {flag : PollFlag} {ch : κ} {m : PollMgr κ}
    (hfd : fd ∉ s.started) (hm : s.mgr.addCallback fd flag ch = some m) :
    Retired { s with mgr := m } := by
  unfold PollMgr.addCallback at hm
  rw [Option.ite_none_left_eq_some, Option.ite_none_left_eq_some] at hm
  obtain ⟨-, -, hm⟩ := hm
  obtain rfl := Option.some.inj hm
  refine ⟨fun k hk kind => ?_, h.waiting, h.began, h.signalled, fun k hk => ?_, h.quiet⟩
  · have hne : k ≠ fd := fun heq => hfd (heq ▸ hk)
    dsimp only
    rw [watches_watchFd hne]
    exact h.unwatched k hk kind
  · have hne : k ≠ fd := fun heq => hfd (heq ▸ h.began k hk)
    dsimp only
    rw [Function.update_of_ne hne]
    exact h.gone k hk

theorem Retired.step (h : Retired s) (hclear : WakesClear s a) (hs : s.step a = some s') :
    Retired s' := by
  rcases a with ⟨fd, flag, ch⟩ | ⟨fd, flag⟩ | fd | k | ⟨rd, wr⟩
  · unfold Removals.step at hs
    rw [Option.ite_none_left_eq_some] at hs
    obtain ⟨m, hm, rfl⟩ := Option.map_eq_some_iff.1 hs.2
    exact h.add hs.1 hm
  · obtain rfl := Option.some.inj hs
    exact h.del
  · obtain rfl := Option.some.inj hs
    exact h.remove
  · obtain ⟨r, hr, rfl⟩ := Option.map_eq_some_iff.1 hs
    exact h.back (List.mem_of_getElem? hr) (fun q hq => List.mem_of_mem_eraseIdx hq)
      (hclear r hr)
  · obtain rfl := Option.some.inj hs
    exact h.poll rd wr

/-- A wait that returns in the middle of a callback breaks the promise at
once. -/
theorem wakesClear_of_quiet (hquiet : ∀ s', s.step a = some s' → Quiet s') : WakesClear s a := by
  rcases a with ⟨fd, flag, ch⟩ | ⟨fd, flag⟩ | fd | k | ⟨rd, wr⟩
  · trivial
  · trivial
  · trivial
  · intro r hr _ kind
    have hs : s.step (.back k) = some { s with
        mgr := s.mgr.removed r.fd (s.mgr.removers.eraseIdx k)
        returned := r.fd :: s.returned } := by
      rw [Removals.step, hr, Option.map_some]
    exact hquiet _ hs r.fd List.mem_cons_self kind
  · trivial

/-- **When `block_remove_fd` keeps its promise**, in every run with any
number of threads: if and only if no wait that was not signalled returns
in the middle of a callback for its descriptor. -/
theorem quiet_iff (pipefd : ℕ) (acts : List (RemovalAct κ)) :
    Along Removals.step Quiet (.new pipefd) acts ↔
      Steps Removals.step WakesClear (.new pipefd) acts :=
  along_iff_steps (fun _ h => h.quiet) (fun _ _ _ h hclear hs => h.step hclear hs)
    (fun _ _ _ hquiet => wakesClear_of_quiet hquiet) (retired_new pipefd)

end

/-- A descriptor is found readable, its removal begins while `read_cb`
runs, and the wait returns for no reason. -/
def spuriousRun : List (RemovalAct Unit) :=
  let ready : ℕ → Bool := fun fd => fd == 5
  [.add 5 .rdonly (), .poll ready ready, .poll ready ready, .poll ready ready,
    .poll ready ready, .remove 5, .back 0]

theorem not_quiet_spuriousRun : ¬ Along Removals.step Quiet (.new 3) spuriousRun := by
  intro h
  have hlast := h.last rfl
  exact hlast 5 List.mem_cons_self .read ⟨[], rfl⟩

end Yfs
