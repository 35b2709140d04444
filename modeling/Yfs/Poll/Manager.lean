import Yfs.Poll.Select

/-!
# The poll manager

`PollMgr` of `rpc/pollmgr.cc`. Its thread goes round `wait_loop`: it
acknowledges removals, takes a copy of the sets that are watched, calls
`select` for what is in them, and then, with no lock, makes the callbacks
of the descriptors that are ready. `add_callback`, `del_callback` and
`block_remove_fd` are sections under `m_`, the last one with a wait for
the thread to come round. `none` is a failed `assert`.
-/

namespace Yfs

/-- The two callbacks. -/
inductive CbKind where
  /-- `read_cb`. -/
  | read
  /-- `write_cb`. -/
  | write
deriving DecidableEq

/-- The descriptor is in the set for a callback. -/
def SelectAio.watches (s : SelectAio) : CbKind → ℕ → Bool
  | .read => s.rfds
  | .write => s.wfds

/-- Where the thread is. -/
inductive PollPc where
  /-- Before the section under `m_` in which the loop begins. -/
  | top
  /-- Before `wait_ready`. -/
  | waitReady
  /-- In `select`. -/
  | select (trfds twfds : ℕ → Bool) (high : ℕ)
  /-- With these callbacks to make, in this order. -/
  | serve (due : List (CbKind × ℕ))
  /-- From the test of `callbacks_[fd]` to the end of the callback. -/
  | call (kind : CbKind) (fd : ℕ) (due : List (CbKind × ℕ))

/-- A thread in the wait of `block_remove_fd`. -/
structure Remover where
  fd : ℕ
  /-- `changedone_c_` was broadcast since it began to wait. -/
  signalled : Bool
deriving DecidableEq

/-- `PollMgr`, with its thread and those that wait for it. `κ` are the
objects with callbacks. -/
structure PollMgr (κ : Type) where
  /-- `aio_`. -/
  aio : SelectAio
  /-- `callbacks_`. -/
  callbacks : ℕ → Option κ
  /-- `pending_change_`. -/
  pending : Bool
  pc : PollPc
  removers : List Remover

variable {κ : Type}

namespace PollMgr

/-- The constructor. -/
def new (pipefd : ℕ) : PollMgr κ := ⟨.new pipefd, fun _ => none, false, .top, []⟩

/-- `PollMgr::add_callback`. -/
def addCallback [DecidableEq κ] (m : PollMgr κ) (fd : ℕ) (flag : PollFlag) (ch : κ) :
    Option (PollMgr κ) :=
  if ¬ fd < maxPollFds then none
  else if ¬ (m.callbacks fd = none ∨ m.callbacks fd = some ch) then none
  else
    some { m with
      aio := m.aio.watchFd fd flag
      callbacks := Function.update m.callbacks fd (some ch) }

/-- `PollMgr::del_callback`. -/
def delCallback (m : PollMgr κ) (fd : ℕ) (flag : PollFlag) : PollMgr κ :=
  let r := m.aio.unwatchFd fd flag
  { m with
    aio := r.1
    callbacks := if r.2 then Function.update m.callbacks fd none else m.callbacks }

/-- `PollMgr::block_remove_fd`, up to the wait. -/
def blockRemoveFd (m : PollMgr κ) (fd : ℕ) : PollMgr κ :=
  { m with
    aio := (m.aio.unwatchFd fd .rdwr).1
    pending := true
    removers := m.removers ++ [⟨fd, false⟩] }

/-- `PollMgr::block_remove_fd`, after the wait. -/
def removed (m : PollMgr κ) (fd : ℕ) (rest : List Remover) : PollMgr κ :=
  { m with callbacks := Function.update m.callbacks fd none, removers := rest }

/-- The section at the top of `wait_loop`. -/
def acknowledge (m : PollMgr κ) : PollMgr κ :=
  if m.pending then
    { m with pending := false, removers := m.removers.map fun r => { r with signalled := true } }
  else m

/-- The next step of the thread. `rd` and `wr` say what is ready; an
interrupted `select` is one for which nothing is. -/
def poll (m : PollMgr κ) (rd wr : ℕ → Bool) : PollMgr κ :=
  match m.pc with
  | .top => { m.acknowledge with pc := .waitReady }
  | .waitReady => { m with pc := .select m.aio.snapshot.1 m.aio.snapshot.2.1 m.aio.snapshot.2.2 }
  | .select trfds twfds high =>
    let r := m.aio.ready (fun fd => trfds fd && rd fd) (fun fd => twfds fd && wr fd) high
    { m with pc := .serve (r.1.map (.read, ·) ++ r.2.map (.write, ·)) }
  | .serve [] => { m with pc := .top }
  | .serve ((kind, fd) :: due) =>
    { m with pc := if (m.callbacks fd).isSome then .call kind fd due else .serve due }
  | .call _ _ due => { m with pc := .serve due }

end PollMgr

/-! ## The round of the thread -/

namespace PollPc

/-- The callback may still be made in this round. -/
def Due (kind : CbKind) (fd : ℕ) : PollPc → Prop
  | .top => False
  | .waitReady => False
  | .select trfds twfds _ => (match kind with | .read => trfds | .write => twfds) fd = true
  | .serve due => (kind, fd) ∈ due
  | .call k f due => (k, f) = (kind, fd) ∨ (kind, fd) ∈ due

/-- A callback for the descriptor is being made. -/
def Calls (kind : CbKind) (fd : ℕ) (pc : PollPc) : Prop := ∃ due, pc = .call kind fd due

theorem Calls.due {kind : CbKind} {fd : ℕ} {pc : PollPc} (h : pc.Calls kind fd) :
    pc.Due kind fd := by
  obtain ⟨due, rfl⟩ := h
  exact .inl rfl

end PollPc

namespace PollMgr

variable {m : PollMgr κ} {rd wr : ℕ → Bool} {kind : CbKind} {fd : ℕ}

/-- The thread changes nothing of what is registered. -/
theorem poll_keeps (m : PollMgr κ) (rd wr : ℕ → Bool) :
    (m.poll rd wr).aio = m.aio ∧ (m.poll rd wr).callbacks = m.callbacks := by
  unfold poll
  split
  · unfold acknowledge
    split
    · exact ⟨rfl, rfl⟩
    · exact ⟨rfl, rfl⟩
  all_goals exact ⟨rfl, rfl⟩

/-- **What comes into a round** is what is watched when it begins. -/
theorem due_of_poll (h : (m.poll rd wr).pc.Due kind fd) :
    m.pc.Due kind fd ∨ (m.pc = .waitReady ∧ m.aio.watches kind fd = true) := by
  unfold poll at h
  split at h
  · exact h.elim
  · rename_i hpc
    refine .inr ⟨hpc, ?_⟩
    rcases kind with _ | _
    · exact h
    · exact h
  · rename_i trfds twfds high hpc
    rw [hpc]
    left
    rcases List.mem_append.1 h with h | h
    · obtain ⟨f, hf, heq⟩ := List.mem_map.1 h
      obtain ⟨rfl, rfl⟩ := Prod.mk.inj heq
      exact (Bool.and_eq_true_iff.1 ((m.aio.mem_ready f).1 hf)).1
    · obtain ⟨f, hf, heq⟩ := List.mem_map.1 h
      obtain ⟨rfl, rfl⟩ := Prod.mk.inj heq
      exact (Bool.and_eq_true_iff.1 ((m.aio.mem_ready f).2 hf)).1
  · exact h.elim
  · rename_i k f due hpc
    rw [hpc]
    left
    dsimp only at h
    split at h
    · rcases h with h | h
      · exact h ▸ List.mem_cons_self
      · exact List.mem_cons_of_mem _ h
    · exact List.mem_cons_of_mem _ h
  · rename_i k f due hpc
    rw [hpc]
    exact .inl (.inr h)

/-- A callback is made only of an object that is there. -/
theorem callbacks_of_calls (h : (m.poll rd wr).pc.Calls kind fd) :
    (m.callbacks fd).isSome = true := by
  obtain ⟨due', h⟩ := h
  unfold poll at h
  split at h
  · exact absurd h PollPc.noConfusion
  · exact absurd h PollPc.noConfusion
  · exact absurd h PollPc.noConfusion
  · exact absurd h PollPc.noConfusion
  · dsimp only at h
    split at h
    · rename_i hf
      obtain ⟨rfl, rfl, rfl⟩ := PollPc.call.inj h
      exact hf
    · exact absurd h PollPc.noConfusion
  · exact absurd h PollPc.noConfusion

/-- The wait of a thread ends with a broadcast at the top of the loop. -/
theorem removers_poll (m : PollMgr κ) (rd wr : ℕ → Bool) :
    (m.poll rd wr).removers = m.removers ∨
      (m.poll rd wr).pc = .waitReady ∧
        (m.poll rd wr).removers = m.removers.map fun r => { r with signalled := true } := by
  unfold poll
  split
  · unfold acknowledge
    split
    · exact .inr ⟨rfl, rfl⟩
    · exact .inl rfl
  all_goals exact .inl rfl

end PollMgr

end Yfs
