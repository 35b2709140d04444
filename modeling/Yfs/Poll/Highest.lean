import Mathlib.Order.Bounds.Basic
import Yfs.Poll.Epoll

/-!
# The highest descriptor

`SelectAIO` keeps the highest descriptor of its two sets in `highfds_`,
which bounds both what `select` looks at and the loop of `wait_ready` over
what `select` has left. It is raised by every `watch_fd`, and searched for
again where the highest descriptor leaves both sets. `along_highestWatched`
says that it is the maximum at all times, whatever is watched and
unwatched.
-/

namespace Yfs

open Common

/-- The descriptor a call is for. -/
def AioCall.fd : AioCall → ℕ
  | .watch fd _ => fd
  | .unwatch fd _ => fd

/-- `select`, of one of its sets: what is left are the descriptors below
`nfds` that are in the set and ready. -/
def select (nfds : ℕ) (fds ready : ℕ → Bool) : ℕ → Bool :=
  fun fd => decide (fd < nfds) && fds fd && ready fd

namespace SelectAio

/-- The descriptors in the two sets. -/
def watched (s : SelectAio) : Set ℕ := {fd | s.rfds fd = true ∨ s.wfds fd = true}

/-- A call. -/
def step (s : SelectAio) : AioCall → Option SelectAio
  | .watch fd flag => some (s.watchFd fd flag)
  | .unwatch fd flag => some (s.unwatchFd fd flag).1

/-- `SelectAIO::wait_ready`: `readable` and `writable`, by what is ready
for reading and for writing. `none` is a `select` that is interrupted. -/
def waitReady (s : SelectAio) : Option ((ℕ → Bool) × (ℕ → Bool)) → List ℕ × List ℕ
  | none => ([], [])
  | some (rd, wr) =>
    let t := s.snapshot
    s.ready (select (t.2.2 + 1) t.1 rd) (select (t.2.2 + 1) t.2.1 wr) t.2.2

end SelectAio

/-- `highfds_` is right, and so what depends on it: `select` is given a
bound above every descriptor that is watched, and `wait_ready` reports
those that are watched and ready. -/
structure HighestWatched (s : SelectAio) : Prop where
  highest : IsGreatest s.watched s.highfds
  passed : ∀ fd ∈ s.watched, fd < s.snapshot.2.2 + 1
  readable : ∀ rd wr fd, fd ≠ s.pipefd →
    (fd ∈ (s.waitReady (some (rd, wr))).1 ↔ s.rfds fd = true ∧ rd fd = true)
  writable : ∀ rd wr fd, fd ≠ s.pipefd →
    (fd ∈ (s.waitReady (some (rd, wr))).2 ↔ s.wfds fd = true ∧ wr fd = true)

/-! ## The search -/

/-- A loop that keeps the last number it finds: that is the largest, or
none was found. -/
theorem foldl_last (p : ℕ → Bool) (d n : ℕ) :
    (∀ i < n, p i = true → i ≤ (List.range n).foldl (fun r i => if p i then i else r) d) ∧
      ((List.range n).foldl (fun r i => if p i then i else r) d = d ∨
        p ((List.range n).foldl (fun r i => if p i then i else r) d) = true) := by
  induction n with
  | zero => exact ⟨fun i hi => absurd hi (Nat.not_lt_zero i), .inl rfl⟩
  | succ n ih =>
    rw [List.range_succ, List.foldl_append, List.foldl_cons, List.foldl_nil]
    by_cases hn : p n = true
    · rw [if_pos hn]
      exact ⟨fun i hi _ => Nat.le_of_lt_succ hi, .inr hn⟩
    · rw [if_neg hn]
      refine ⟨fun i hi hpi => ih.1 i ?_ hpi, ih.2⟩
      have hne : i ≠ n := fun heq => hn (heq ▸ hpi)
      omega

namespace SelectAio

variable {s : SelectAio} {fd : ℕ} {flag : PollFlag}

theorem mem_watched_iff (s : SelectAio) (fd : ℕ) :
    fd ∈ s.watched ↔ (s.rfds fd || s.wfds fd) = true := by
  rw [Bool.or_eq_true]
  exact Iff.rfl

theorem gone_iff (s : SelectAio) (fd : ℕ) : s.gone fd = true ↔ fd ∉ s.watched := by
  rw [mem_watched_iff, gone, ← Bool.not_or, Bool.not_eq_true']
  exact (Bool.not_eq_true _).symm.to_iff

/-- **The search** finds the highest descriptor there is, where the pipe is
one and none is above the old one. -/
theorem isGreatest_rescan (hpipe : s.rfds s.pipefd = true)
    (hle : ∀ fd ∈ s.watched, fd ≤ s.highfds) : IsGreatest s.watched s.rescan := by
  have hscan : s.rescan = (List.range (s.highfds + 1)).foldl
      (fun r i => if s.rfds i || s.wfds i then i else r) s.pipefd := by
    unfold rescan
    congr 1
    funext r i
    cases s.rfds i
    · rfl
    · rfl
  obtain ⟨hupper, hmem⟩ := foldl_last (fun i => s.rfds i || s.wfds i) s.pipefd (s.highfds + 1)
  rw [← hscan] at hupper hmem
  refine ⟨?_, fun k hk => hupper k (Nat.lt_succ_of_le (hle k hk)) ((s.mem_watched_iff k).1 hk)⟩
  rcases hmem with hmem | hmem
  · rw [hmem]
    exact .inl hpipe
  · exact (s.mem_watched_iff _).2 hmem

/-! ## The calls -/

theorem watched_watchFd (s : SelectAio) (fd : ℕ) (flag : PollFlag) :
    (s.watchFd fd flag).watched = insert fd s.watched := by
  ext k
  rw [Set.mem_insert_iff, mem_watched_iff, mem_watched_iff, rfds_watchFd, wfds_watchFd]
  by_cases hk : k = fd
  · subst hk
    rw [Function.update_self, Function.update_self]
    cases flag <;> simp [PollFlag.rd, PollFlag.wr]
  · rw [Function.update_of_ne hk, Function.update_of_ne hk, or_iff_right hk]

theorem highfds_watchFd (s : SelectAio) (fd : ℕ) (flag : PollFlag) :
    (s.watchFd fd flag).highfds = max fd s.highfds := by
  have hif : (if s.highfds ≤ fd then fd else s.highfds) = max fd s.highfds := by
    split
    · omega
    · omega
  cases flag <;> exact hif

/-- Nothing but the descriptor itself leaves the sets, and nothing comes
in. -/
theorem mem_watched_clear (s : SelectAio) (fd k : ℕ) (flag : PollFlag) :
    (k ∈ (s.clear fd flag).watched → k ∈ s.watched) ∧
      (k ≠ fd → k ∈ s.watched → k ∈ (s.clear fd flag).watched) := by
  rw [mem_watched_iff, mem_watched_iff, ← (s.unwatchFd_sets fd flag).1,
    ← (s.unwatchFd_sets fd flag).2, rfds_unwatchFd, wfds_unwatchFd]
  by_cases hk : k = fd
  · subst hk
    rw [Function.update_self, Function.update_self, Bool.or_eq_true, Bool.or_eq_true,
      Bool.and_eq_true, Bool.and_eq_true]
    exact ⟨fun h => h.imp And.left And.left, fun hne => absurd rfl hne⟩
  · rw [Function.update_of_ne hk, Function.update_of_ne hk]
    exact ⟨id, fun _ => id⟩

theorem clear_keeps (s : SelectAio) (fd : ℕ) (flag : PollFlag) :
    (s.clear fd flag).highfds = s.highfds ∧ (s.clear fd flag).pipefd = s.pipefd := by
  cases flag <;> exact ⟨rfl, rfl⟩

end SelectAio

/-! ## The invariant -/

/-- The invariant: the pipe is watched, and `highfds_` is the maximum. -/
structure Topped (pipefd : ℕ) (s : SelectAio) : Prop where
  pipefd_eq : s.pipefd = pipefd
  pipe : s.rfds pipefd = true
  greatest : IsGreatest s.watched s.highfds

section

variable {s s' : SelectAio} {pipefd fd : ℕ}

theorem topped_new (pipefd : ℕ) : Topped pipefd (.new pipefd) := by
  have hpipe : (SelectAio.new pipefd).rfds pipefd = true := by simp [SelectAio.new]
  refine ⟨rfl, hpipe, .inl hpipe, fun k hk => ?_⟩
  rcases hk with hk | hk
  · by_cases hne : k = pipefd
    · exact Nat.le_of_eq hne
    · unfold SelectAio.new at hk
      dsimp only at hk
      rw [Function.update_of_ne hne] at hk
      exact absurd hk Bool.false_ne_true
  · exact absurd hk Bool.false_ne_true

theorem Topped.watchFd (h : Topped pipefd s) (fd : ℕ) (flag : PollFlag) :
    Topped pipefd (s.watchFd fd flag) := by
  have hpipe : (s.watchFd fd flag).pipefd = s.pipefd := by cases flag <;> rfl
  refine ⟨hpipe.trans h.pipefd_eq, ?_, ?_⟩
  · rw [SelectAio.rfds_watchFd]
    by_cases hfd : pipefd = fd
    · rw [hfd, Function.update_self, ← hfd, h.pipe, Bool.true_or]
    · rw [Function.update_of_ne hfd, h.pipe]
  · rw [SelectAio.watched_watchFd, SelectAio.highfds_watchFd]
    exact h.greatest.insert fd

/-- **`unwatch_fd`**: the maximum changes only where the highest descriptor
leaves both sets. -/
theorem Topped.unwatchFd (h : Topped pipefd s) (hfd : fd ≠ pipefd) (flag : PollFlag) :
    Topped pipefd (s.unwatchFd fd flag).1 := by
  obtain ⟨hhigh, hpipefd⟩ := s.clear_keeps fd flag
  have hpipe : (s.clear fd flag).rfds pipefd = true := by
    rw [← (s.unwatchFd_sets fd flag).1, SelectAio.rfds_unwatchFd, Function.update_of_ne hfd.symm,
      h.pipe]
  have hle : ∀ k ∈ (s.clear fd flag).watched, k ≤ (s.clear fd flag).highfds := by
    intro k hk
    rw [hhigh]
    exact h.greatest.2 ((s.mem_watched_clear fd k flag).1 hk)
  have hsame := hpipefd.trans h.pipefd_eq
  unfold SelectAio.unwatchFd
  dsimp only
  split
  · refine ⟨hsame, hpipe, SelectAio.isGreatest_rescan ?_ hle⟩
    rw [hsame]
    exact hpipe
  · rename_i hkeep
    refine ⟨hsame, hpipe, ?_, hle⟩
    -- the highest descriptor is another one, or is still in one of the sets
    by_cases heq : s.highfds = fd
    · by_contra hnot
      refine hkeep ⟨((s.clear fd flag).gone_iff fd).2 ?_, heq.symm.trans hhigh.symm⟩
      rwa [hhigh, heq] at hnot
    · rw [hhigh]
      exact (s.mem_watched_clear fd s.highfds flag).2 heq h.greatest.1

/-- **One step** keeps the invariant. -/
theorem Topped.step {c : AioCall} (h : Topped pipefd s) (hfd : c.fd ≠ pipefd)
    (hs : s.step c = some s') : Topped pipefd s' := by
  rcases c with ⟨fd, flag⟩ | ⟨fd, flag⟩
  · obtain rfl := Option.some.inj hs
    exact h.watchFd fd flag
  · obtain rfl := Option.some.inj hs
    exact h.unwatchFd hfd flag

/-- What is ready and watched is not cut off, by `select` or by the loop. -/
theorem mem_filter_select {fds ready q : ℕ → Bool} {high : ℕ}
    (hle : fds fd = true → fd ≤ high) (hq : q fd = false) :
    fd ∈ (List.range (high + 1)).filter (fun k => select (high + 1) fds ready k && !q k) ↔
      fds fd = true ∧ ready fd = true := by
  rw [List.mem_filter, List.mem_range, hq, select]
  simp only [Bool.not_false, Bool.and_true, Bool.and_eq_true, decide_eq_true_eq]
  constructor
  · rintro ⟨-, ⟨-, hfds⟩, hready⟩
    exact ⟨hfds, hready⟩
  · rintro ⟨hfds, hready⟩
    have hlt := Nat.lt_succ_of_le (hle hfds)
    exact ⟨hlt, ⟨hlt, hfds⟩, hready⟩

theorem Topped.highestWatched (h : Topped pipefd s) : HighestWatched s where
  highest := h.greatest
  passed fd hfd := Nat.lt_succ_of_le (h.greatest.2 hfd)
  readable rd wr fd hfd := by
    unfold SelectAio.waitReady SelectAio.snapshot
    dsimp only
    rw [SelectAio.ready_eq]
    exact mem_filter_select (fun hr => h.greatest.2 (.inl hr)) (decide_eq_false hfd)
  writable rd wr fd hfd := by
    unfold SelectAio.waitReady SelectAio.snapshot
    dsimp only
    rw [SelectAio.ready_eq]
    refine mem_filter_select (fun hw => h.greatest.2 (.inr hw)) ?_
    rw [decide_eq_false hfd, Bool.false_and]

end

/-- **`highfds_` is the maximum.** After any calls of `watch_fd` and
`unwatch_fd`, with any flags, watched or not, for any descriptors but that
of the pipe: `highfds_` is the highest descriptor in the two sets, `select`
looks at every one that is watched, and `wait_ready` reports every one that
is ready. -/
theorem along_highestWatched (pipefd : ℕ) (calls : List AioCall)
    (hcalls : ∀ c ∈ calls, c.fd ≠ pipefd) :
    Along SelectAio.step HighestWatched (.new pipefd) calls :=
  along_of_steps (C := fun _ c => c.fd ≠ pipefd) (fun _ _ _ h hfd hs => h.step hfd hs)
    (fun _ h => h.highestWatched) (topped_new pipefd) (steps_of_forall fun c hc _ => hcalls c hc)

/-- Two descriptors are watched, the higher one is unwatched bit by bit,
then one that is not watched, and then the other. -/
def watchedAndUnwatched : List AioCall :=
  [.watch 5 .rdonly, .watch 9 .rdwr, .unwatch 9 .rdonly, .unwatch 12 .rdwr, .unwatch 9 .wronly,
    .unwatch 5 .rdwr]

theorem highestWatched_watchedAndUnwatched :
    ((exec SelectAio.step (.new 3) (watchedAndUnwatched.take 3)).map SelectAio.highfds = some 9 ∧
      (exec SelectAio.step (.new 3) (watchedAndUnwatched.take 5)).map SelectAio.highfds = some 5 ∧
      (exec SelectAio.step (.new 3) watchedAndUnwatched).map SelectAio.highfds = some 3) ∧
      Along SelectAio.step HighestWatched (.new 3) watchedAndUnwatched :=
  ⟨by decide, along_highestWatched 3 watchedAndUnwatched (by decide)⟩

end Yfs
