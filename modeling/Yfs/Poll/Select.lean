import Mathlib.Data.List.Basic
import Mathlib.Logic.Function.Basic

/-!
# The descriptors that are watched

`SelectAIO` of `rpc/pollmgr.cc`: two sets of descriptors, the highest of
them, and a pipe by which a call wakes up the thread that is in `select`.
Each function is a section under `m_`, but for the call of `select`
itself; of the pipe only its descriptor is kept, which is always watched
for reading.
-/

namespace Yfs

/-- `MAX_POLL_FDS`. -/
def maxPollFds : ℕ := 128

/-- `poll_flag`, as it is passed. -/
inductive PollFlag where
  /-- `CB_RDONLY`. -/
  | rdonly
  /-- `CB_WRONLY`. -/
  | wronly
  /-- `CB_RDWR`. -/
  | rdwr
deriving DecidableEq

/-- The flag asks for reading. -/
def PollFlag.rd : PollFlag → Bool
  | .wronly => false
  | _ => true

/-- The flag asks for writing. -/
def PollFlag.wr : PollFlag → Bool
  | .rdonly => false
  | _ => true

/-- `SelectAIO`. -/
structure SelectAio where
  /-- `rfds_`. -/
  rfds : ℕ → Bool
  /-- `wfds_`. -/
  wfds : ℕ → Bool
  /-- `highfds_`. -/
  highfds : ℕ
  /-- `pipefd_[0]`. -/
  pipefd : ℕ

namespace SelectAio

/-- The constructor. -/
def new (pipefd : ℕ) : SelectAio :=
  ⟨Function.update (fun _ => false) pipefd true, fun _ => false, pipefd, pipefd⟩

/-- `SelectAIO::watch_fd`. -/
def watchFd (s : SelectAio) (fd : ℕ) (flag : PollFlag) : SelectAio :=
  let s := { s with highfds := if s.highfds ≤ fd then fd else s.highfds }
  match flag with
  | .rdonly => { s with rfds := Function.update s.rfds fd true }
  | .wronly => { s with wfds := Function.update s.wfds fd true }
  | .rdwr =>
    { s with rfds := Function.update s.rfds fd true, wfds := Function.update s.wfds fd true }

/-- `SelectAIO::is_watched`. -/
def isWatched (s : SelectAio) (fd : ℕ) : PollFlag → Bool
  | .rdonly => s.rfds fd
  | .wronly => s.wfds fd
  | .rdwr => s.rfds fd && s.wfds fd

/-- The loop of `unwatch_fd` for the highest descriptor. -/
def rescan (s : SelectAio) : ℕ :=
  (List.range (s.highfds + 1)).foldl
    (fun newh i => if s.rfds i then i else if s.wfds i then i else newh) s.pipefd

/-- The descriptor is in neither set. -/
def gone (s : SelectAio) (fd : ℕ) : Bool := !s.rfds fd && !s.wfds fd

/-- The first part of `unwatch_fd`. -/
def clear (s : SelectAio) (fd : ℕ) : PollFlag → SelectAio
  | .rdonly => { s with rfds := Function.update s.rfds fd false }
  | .wronly => { s with wfds := Function.update s.wfds fd false }
  | .rdwr =>
    { s with wfds := Function.update s.wfds fd false, rfds := Function.update s.rfds fd false }

/-- `SelectAIO::unwatch_fd`. -/
def unwatchFd (s : SelectAio) (fd : ℕ) (flag : PollFlag) : SelectAio × Bool :=
  let s := s.clear fd flag
  let s := if s.gone fd = true ∧ fd = s.highfds then { s with highfds := s.rescan } else s
  (s, s.gone fd)

/-- `SelectAIO::wait_ready`, before `select` is called: `trfds`, `twfds`
and `high`. -/
def snapshot (s : SelectAio) : (ℕ → Bool) × (ℕ → Bool) × ℕ := (s.rfds, s.wfds, s.highfds)

/-- `SelectAIO::wait_ready`, after `select` has left the descriptors that
are ready in the two sets: `readable` and `writable`. -/
def ready (s : SelectAio) (trfds twfds : ℕ → Bool) (high : ℕ) : List ℕ × List ℕ :=
  (List.range (high + 1)).foldl
    (fun l fd =>
      if fd = s.pipefd ∧ trfds fd = true then l
      else
        (if trfds fd then l.1 ++ [fd] else l.1, if twfds fd then l.2 ++ [fd] else l.2))
    ([], [])

variable (s : SelectAio) (fd : ℕ) (flag : PollFlag)

theorem rfds_watchFd : (s.watchFd fd flag).rfds =
    Function.update s.rfds fd (s.rfds fd || flag.rd) := by
  cases flag <;> simp [watchFd, PollFlag.rd]

theorem wfds_watchFd : (s.watchFd fd flag).wfds =
    Function.update s.wfds fd (s.wfds fd || flag.wr) := by
  cases flag <;> simp [watchFd, PollFlag.wr]

/-- The search for the highest descriptor leaves the sets alone. -/
theorem unwatchFd_sets : (s.unwatchFd fd flag).1.rfds = (s.clear fd flag).rfds ∧
    (s.unwatchFd fd flag).1.wfds = (s.clear fd flag).wfds := by
  unfold unwatchFd
  dsimp only
  split
  · exact ⟨rfl, rfl⟩
  · exact ⟨rfl, rfl⟩

theorem pipefd_unwatchFd : (s.unwatchFd fd flag).1.pipefd = s.pipefd := by
  have hclear : (s.clear fd flag).pipefd = s.pipefd := by cases flag <;> rfl
  unfold unwatchFd
  dsimp only
  split
  · exact hclear
  · exact hclear

theorem rfds_unwatchFd : (s.unwatchFd fd flag).1.rfds =
    Function.update s.rfds fd (s.rfds fd && !flag.rd) := by
  rw [(s.unwatchFd_sets fd flag).1]
  cases flag <;> simp [clear, PollFlag.rd]

theorem wfds_unwatchFd : (s.unwatchFd fd flag).1.wfds =
    Function.update s.wfds fd (s.wfds fd && !flag.wr) := by
  rw [(s.unwatchFd_sets fd flag).2]
  cases flag <;> simp [clear, PollFlag.wr]

/-- What `unwatch_fd` returns. -/
theorem unwatchFd_snd : (s.unwatchFd fd flag).2 =
    (!(s.rfds fd && !flag.rd) && !(s.wfds fd && !flag.wr)) := by
  have hsnd : (s.unwatchFd fd flag).2 = (s.unwatchFd fd flag).1.gone fd := rfl
  rw [hsnd, gone, rfds_unwatchFd, wfds_unwatchFd, Function.update_self, Function.update_self]

theorem isWatched_eq : s.isWatched fd flag =
    ((!flag.rd || s.rfds fd) && (!flag.wr || s.wfds fd)) := by
  cases flag <;> simp [isWatched, PollFlag.rd, PollFlag.wr]

/-! ## What `wait_ready` reports -/

theorem foldl_ready {trfds twfds : ℕ → Bool} (fds : List ℕ) (l : List ℕ × List ℕ) :
    fds.foldl
        (fun l fd =>
          if fd = s.pipefd ∧ trfds fd = true then l
          else
            (if trfds fd then l.1 ++ [fd] else l.1, if twfds fd then l.2 ++ [fd] else l.2)) l =
      (l.1 ++ fds.filter (fun fd => trfds fd && !decide (fd = s.pipefd)),
        l.2 ++ fds.filter (fun fd => twfds fd && !(decide (fd = s.pipefd) && trfds fd))) := by
  induction fds generalizing l with
  | nil => simp
  | cons fd fds ih =>
    rw [List.foldl_cons, ih, List.filter_cons, List.filter_cons]
    by_cases hpipe : fd = s.pipefd <;> cases hr : trfds fd <;> cases hw : twfds fd <;> simp_all

/-- **What `wait_ready` reports**: the descriptors that `select` left in
the sets, but for the pipe. -/
theorem ready_eq (trfds twfds : ℕ → Bool) (high : ℕ) :
    s.ready trfds twfds high =
      ((List.range (high + 1)).filter (fun fd => trfds fd && !decide (fd = s.pipefd)),
        (List.range (high + 1)).filter
          (fun fd => twfds fd && !(decide (fd = s.pipefd) && trfds fd))) :=
  s.foldl_ready (List.range (high + 1)) ([], [])

/-- A descriptor is reported where `select` left it in the set. -/
theorem mem_ready {trfds twfds : ℕ → Bool} {high : ℕ} :
    (fd ∈ (s.ready trfds twfds high).1 → trfds fd = true) ∧
      (fd ∈ (s.ready trfds twfds high).2 → twfds fd = true) := by
  rw [ready_eq]
  refine ⟨fun h => ?_, fun h => ?_⟩
  · exact (Bool.and_eq_true_iff.1 (List.mem_filter.1 h).2).1
  · exact (Bool.and_eq_true_iff.1 (List.mem_filter.1 h).2).1

/-- No descriptor is reported twice as writable. -/
theorem nodup_ready (trfds twfds : ℕ → Bool) (high : ℕ) :
    (s.ready trfds twfds high).2.Nodup := by
  rw [ready_eq]
  exact List.nodup_range.filter _

end SelectAio

end Yfs
