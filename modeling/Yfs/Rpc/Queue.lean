import Yfs.Rpc.ThrPool

/-!
# The queue and its condition variables

`fifo` of `fifo.h` once more, with the two variables on which `enq` and
`deq` wait. `Rpc.ThrPool` takes them for sections that are not entered
while the queue is full or empty; here each is a loop that tests, waits
and is woken by a single signal, which a third call may overtake, or for
no reason. `along_blocks` says that this is the same: whoever is left
waiting, when nobody can go on, waits for a full queue or for an empty one
and for nothing else.
-/

namespace Yfs

open Common

/-! ## The calls -/

/-- The condition variables. -/
inductive FifoCond where
  /-- `non_empty_c_`. -/
  | nonEmpty
  /-- `has_space_c_`. -/
  | hasSpace
deriving DecidableEq

inductive FifoCall (T : Type) where
  | enq (e : T) (blocking : Bool)
  | deq

/-- Where a call is. -/
inductive FifoPc where
  /-- Before it obtains the mutex. -/
  | start
  /-- In `pthread_cond_wait`. -/
  | waiting
  /-- Signalled, before it obtains the mutex again. -/
  | signalled
  /-- The wait returns for no reason, before it obtains the mutex again. -/
  | woken
deriving DecidableEq

/-- A call on its thread. -/
structure FifoThread (T : Type) where
  call : FifoCall T
  pc : FifoPc

section

variable {T : Type}

/-- The variable on which a call waits. -/
def FifoCall.cond : FifoCall T → FifoCond
  | .enq _ _ => .hasSpace
  | .deq => .nonEmpty

/-- The call waits on the variable. -/
def FifoThread.waitsOn (c : FifoCond) (t : FifoThread T) : Bool :=
  decide (t.call.cond = c) && decide (t.pc = .waiting)

/-- The call was signalled there and has not resumed. -/
def FifoThread.signalledOn (c : FifoCond) (t : FifoThread T) : Bool :=
  decide (t.call.cond = c) && decide (t.pc = .signalled)

/-- `pthread_cond_signal`: one of those that wait is woken, the `w`-th of
the threads, if there are any. -/
def FifoCond.signal (c : FifoCond) (threads : List (FifoThread T)) (w : ℕ) :
    Option (List (FifoThread T)) :=
  if threads.any (·.waitsOn c) then
    threads[w]?.bind fun t =>
      if t.waitsOn c then some (threads.set w { t with pc := .signalled }) else none
  else some threads

end

/-- A queue with the calls that have not returned, and what came of the
others. -/
structure FifoSys (T : Type) where
  fifo : Fifo T
  threads : List (FifoThread T)
  /-- What `enq` has queued, in order, -/
  added : List T
  /-- and returned false for. -/
  refused : List T
  /-- What `deq` has returned, in order. -/
  taken : List T

namespace FifoSys

variable {T : Type}

/-- A queue with this limit. -/
def new (max : ℕ) : FifoSys T := ⟨⟨[], max⟩, [], [], [], []⟩

/-- `enq`, from where it obtains the mutex to the wait or the end. -/
def enq (s : FifoSys T) (t : FifoThread T) (rest : List (FifoThread T)) (w : ℕ) (e : T)
    (blocking : Bool) : Option (FifoSys T) :=
  match s.fifo.enq e with
  | some f =>
    (FifoCond.nonEmpty.signal rest w).map fun threads =>
      { s with fifo := f, threads := threads, added := s.added ++ [e] }
  | none =>
    if blocking then some { s with threads := { t with pc := .waiting } :: rest }
    else some { s with threads := rest, refused := e :: s.refused }

/-- `deq`, likewise. -/
def deq (s : FifoSys T) (t : FifoThread T) (rest : List (FifoThread T)) (w : ℕ) :
    Option (FifoSys T) :=
  match s.fifo.deq with
  | none => some { s with threads := { t with pc := .waiting } :: rest }
  | some (e, f) =>
    if f.max ≠ 0 ∧ f.q.length < f.max then
      (FifoCond.hasSpace.signal rest w).map fun threads =>
        { s with fifo := f, threads := threads, taken := s.taken ++ [e] }
    else some { s with fifo := f, threads := rest, taken := s.taken ++ [e] }

/-- A thread obtains the mutex. -/
def run (s : FifoSys T) (t : FifoThread T) (rest : List (FifoThread T)) (w : ℕ) :
    Option (FifoSys T) :=
  if t.pc = .waiting then none
  else
    match t.call with
    | .enq e blocking => s.enq t rest w e blocking
    | .deq => s.deq t rest w

/-- What can happen. -/
inductive Act (T : Type) where
  /-- A thread calls `enq` or `deq`. -/
  | call (c : FifoCall T)
  /-- A thread obtains the mutex; where it signals, the `w`-th of the
  others is woken. -/
  | run (k w : ℕ)
  /-- A wait returns for no reason. -/
  | wake (k : ℕ)

/-- One step. -/
def step (s : FifoSys T) : Act T → Option (FifoSys T)
  | .call c => some { s with threads := s.threads ++ [⟨c, .start⟩] }
  | .run k w => s.threads[k]?.bind fun t => s.run t (s.threads.eraseIdx k) w
  | .wake k =>
    s.threads[k]?.bind fun t =>
      if t.pc = .waiting then some { s with threads := s.threads.set k { t with pc := .woken } }
      else none

end FifoSys

section

variable {T : Type}

/-- How many calls could go on that wait on the variable. -/
def Fifo.room (f : Fifo T) : FifoCond → ℕ
  | .nonEmpty => f.q.length
  | .hasSpace => f.max - f.q.length

/-- What the call is for cannot be done with this queue, and the call is
one that waits. -/
def FifoCall.Blocked (f : Fifo T) : FifoCall T → Prop
  | .enq e blocking => blocking = true ∧ f.enq e = none
  | .deq => f.deq = none

/-- What the queue promises. -/
structure Blocks (s : FifoSys T) : Prop where
  inOrder : s.added = s.taken ++ s.fifo.q
  bounded : 0 < s.fifo.max → s.fifo.q.length ≤ s.fifo.max
  /-- While a call waits, as many as could go on have been signalled. -/
  signalled : ∀ c, (∃ t ∈ s.threads, t.waitsOn c = true) →
    s.fifo.room c ≤ s.threads.countP (·.signalledOn c)
  /-- The calls that there are come to an end, -/
  ends : ∀ as t, (∀ a ∈ as, ∃ k w, a = FifoSys.Act.run k w) →
    exec FifoSys.step s as = some t → as.length ≤ 2 * s.threads.length
  /-- up to those for which the queue is full or empty. -/
  blocked : (∀ k w, s.step (.run k w) = none) → ∀ t ∈ s.threads, t.call.Blocked s.fifo

end

/-! ## A signal that is due -/

section

variable {T : Type} {c c' : FifoCond} {n w : ℕ} {t : FifoThread T}
  {threads threads' rest : List (FifoThread T)}

/-- While a call waits on the variable, so many have been signalled. -/
def Due (c : FifoCond) (n : ℕ) (threads : List (FifoThread T)) : Prop :=
  (∃ t ∈ threads, t.waitsOn c = true) → n ≤ threads.countP (·.signalledOn c)

/-- What `signal` does: nothing, where nobody waits, or it wakes one that
waits. -/
theorem FifoCond.signal_cases (h : c.signal rest w = some threads) :
    ((∀ t ∈ rest, t.waitsOn c = false) ∧ threads = rest) ∨
      ∃ u others, u.waitsOn c = true ∧ rest.Perm (u :: others) ∧
        threads.Perm ({ u with pc := .signalled } :: others) := by
  unfold FifoCond.signal at h
  split at h
  · obtain ⟨u, hu, h⟩ := Option.bind_eq_some_iff.1 h
    rw [Option.ite_none_right_eq_some] at h
    obtain ⟨hwaits, rfl⟩ := h.imp_right Option.some.inj
    obtain ⟨hlt, -⟩ := List.getElem?_eq_some_iff.1 hu
    exact .inr ⟨u, rest.eraseIdx w, hwaits, perm_eraseIdx hu, List.set_perm_cons_eraseIdx hlt _⟩
  · rename_i hnone
    rw [Bool.not_eq_true, List.any_eq_false] at hnone
    exact .inl ⟨fun t ht => Bool.not_eq_true _ ▸ hnone t ht, (Option.some.inj h).symm⟩

/-- It has somebody to wake where somebody waits. -/
theorem FifoCond.exists_signal (c : FifoCond) (rest : List (FifoThread T)) :
    ∃ w threads, c.signal rest w = some threads := by
  by_cases h : rest.any (·.waitsOn c) = true
  · obtain ⟨t, ht, hwaits⟩ := List.any_eq_true.1 h
    obtain ⟨w, hw⟩ := List.mem_iff_getElem?.1 ht
    refine ⟨w, rest.set w { t with pc := .signalled }, ?_⟩
    unfold FifoCond.signal
    rw [if_pos h, hw, Option.bind_some, if_pos hwaits]
  · exact ⟨0, rest, by unfold FifoCond.signal; rw [if_neg h]⟩

theorem FifoThread.waitsOn_iff :
    t.waitsOn c = true ↔ t.call.cond = c ∧ t.pc = .waiting := by
  unfold FifoThread.waitsOn
  rw [Bool.and_eq_true, decide_eq_true_iff, decide_eq_true_iff]

theorem FifoThread.signalledOn_iff :
    t.signalledOn c = true ↔ t.call.cond = c ∧ t.pc = .signalled := by
  unfold FifoThread.signalledOn
  rw [Bool.and_eq_true, decide_eq_true_iff, decide_eq_true_iff]

theorem due_zero : Due c 0 threads := fun _ => Nat.zero_le _

theorem Due.perm (h : Due c n threads) (hperm : threads.Perm threads') : Due c n threads' := by
  rintro ⟨t, ht, hwaits⟩
  rw [← hperm.countP_eq]
  exact h ⟨t, hperm.mem_iff.2 ht, hwaits⟩

/-- A call on the other variable comes or goes. -/
theorem due_cons_of_ne (hne : t.call.cond ≠ c) : Due c n (t :: rest) ↔ Due c n rest := by
  have hwaits : t.waitsOn c ≠ true := fun h => hne (FifoThread.waitsOn_iff.1 h).1
  have hcount : t.signalledOn c ≠ true := fun h => hne (FifoThread.signalledOn_iff.1 h).1
  unfold Due
  rw [List.countP_cons_of_neg hcount]
  simp only [List.mem_cons, exists_eq_or_imp, hwaits, Bool.false_eq_true, false_or]

/-- One that may have been signalled goes, and what it was signalled for
is gone as well. -/
theorem Due.tail (h : Due c (n + 1) (t :: rest)) : Due c n rest := by
  rintro ⟨u, hu, hwaits⟩
  have hle := h ⟨u, List.mem_cons_of_mem t hu, hwaits⟩
  rw [List.countP_cons] at hle
  split at hle
  · omega
  · omega

/-- The signal of the variable. -/
theorem Due.signal (h : Due c n rest) (hsig : c.signal rest w = some threads) :
    Due c (n + 1) threads := by
  rcases FifoCond.signal_cases hsig with ⟨hnone, rfl⟩ | ⟨u, others, hwaits, hrest, hthreads⟩
  · rintro ⟨t, ht, hwaits⟩
    rw [hnone t ht] at hwaits
    exact absurd hwaits Bool.false_ne_true
  · have hu := FifoThread.waitsOn_iff.1 hwaits
    have hle := h.perm hrest ⟨u, List.mem_cons_self, hwaits⟩
    have hnot : u.signalledOn c ≠ true := by
      intro hsig
      rw [FifoThread.signalledOn_iff, hu.2] at hsig
      exact FifoPc.noConfusion hsig.2
    rw [List.countP_cons_of_neg hnot] at hle
    have hnew : FifoThread.signalledOn c { u with pc := .signalled } = true :=
      FifoThread.signalledOn_iff.2 ⟨hu.1, rfl⟩
    intro _
    rw [hthreads.countP_eq, List.countP_cons_of_pos hnew]
    omega

/-- The signal of the other. -/
theorem Due.signal_of_ne (h : Due c n rest) (hne : c' ≠ c)
    (hsig : c'.signal rest w = some threads) : Due c n threads := by
  rcases FifoCond.signal_cases hsig with ⟨-, rfl⟩ | ⟨u, others, hwaits, hrest, hthreads⟩
  · exact h
  · have hu : u.call.cond ≠ c := (FifoThread.waitsOn_iff.1 hwaits).1 ▸ hne
    have hothers : Due c n others := (due_cons_of_ne hu).1 (h.perm hrest)
    exact ((due_cons_of_ne (t := { u with pc := .signalled }) hu).2 hothers).perm hthreads.symm

end

/-! ## The invariant -/

section

variable {T : Type} {s s' : FifoSys T} {t : FifoThread T} {rest : List (FifoThread T)} {w : ℕ}

/-- The call is one that can wait. -/
def FifoCall.Waits (max : ℕ) : FifoCall T → Prop
  | .enq _ blocking => blocking = true ∧ 0 < max
  | .deq => True

/-- The invariant. -/
structure Queue (s : FifoSys T) : Prop where
  inOrder : s.added = s.taken ++ s.fifo.q
  bounded : 0 < s.fifo.max → s.fifo.q.length ≤ s.fifo.max
  due : ∀ c, Due c (s.fifo.room c) s.threads
  waits : ∀ t ∈ s.threads, t.pc ≠ .start → t.call.Waits s.fifo.max

/-- The next step of a call. -/
inductive Passed (s : FifoSys T) (t : FifoThread T) (rest : List (FifoThread T)) (w : ℕ)
    (s' : FifoSys T) : Prop where
  | waits (hblocked : t.call.Blocked s.fifo)
      (h : s' = { s with threads := { t with pc := .waiting } :: rest })
  | refused (e : T) (hcall : t.call = .enq e false) (hfull : s.fifo.enq e = none)
      (h : s' = { s with threads := rest, refused := e :: s.refused })
  | added (e : T) (blocking : Bool) (f : Fifo T) (threads : List (FifoThread T))
      (hcall : t.call = .enq e blocking) (henq : s.fifo.enq e = some f)
      (hsig : FifoCond.nonEmpty.signal rest w = some threads)
      (h : s' = { s with fifo := f, threads := threads, added := s.added ++ [e] })
  | taken (e : T) (f : Fifo T) (threads : List (FifoThread T))
      (hcall : t.call = .deq) (hdeq : s.fifo.deq = some (e, f))
      (hsig : if f.max ≠ 0 ∧ f.q.length < f.max then
          FifoCond.hasSpace.signal rest w = some threads else threads = rest)
      (h : s' = { s with fifo := f, threads := threads, taken := s.taken ++ [e] })

theorem passed_of_run (h : s.run t rest w = some s') : t.pc ≠ .waiting ∧ Passed s t rest w s' := by
  unfold FifoSys.run at h
  rw [Option.ite_none_left_eq_some] at h
  obtain ⟨hpc, h⟩ := h
  refine ⟨hpc, ?_⟩
  split at h
  · rename_i e blocking hcall
    unfold FifoSys.enq at h
    split at h
    · rename_i f henq
      obtain ⟨threads, hsig, rfl⟩ := Option.map_eq_some_iff.1 h
      exact .added e blocking f threads hcall henq hsig rfl
    · rename_i hnone
      split at h
      · rename_i hblocking
        refine .waits ?_ (Option.some.inj h).symm
        rw [hcall]
        exact ⟨hblocking, hnone⟩
      · rename_i hblocking
        rw [Bool.not_eq_true] at hblocking
        exact .refused e (hblocking ▸ hcall) hnone (Option.some.inj h).symm
  · rename_i hcall
    unfold FifoSys.deq at h
    split at h
    · rename_i hnone
      refine .waits ?_ (Option.some.inj h).symm
      rw [hcall]
      exact hnone
    · rename_i e f hdeq
      split at h
      · rename_i htest
        obtain ⟨threads, hsig, rfl⟩ := Option.map_eq_some_iff.1 h
        exact .taken e f threads hcall hdeq (by rw [if_pos htest]; exact hsig) rfl
      · rename_i htest
        exact .taken e f rest hcall hdeq (by rw [if_neg htest]) (Option.some.inj h).symm

/-- What a full queue is. -/
theorem enq_eq_none {f : Fifo T} {e : T} :
    f.enq e = none ↔ 0 < f.max ∧ f.room .hasSpace = 0 := by
  have hroom : f.room .hasSpace = f.max - f.q.length := rfl
  unfold Fifo.enq
  rw [hroom, ite_eq_right_iff]
  constructor
  · intro h
    by_contra hspace
    exact Option.some_ne_none _ (h (by omega))
  · intro hfull hspace
    omega

theorem deq_eq_none {f : Fifo T} : f.deq = none ↔ f.room .nonEmpty = 0 := by
  obtain ⟨q, max⟩ := f
  cases q with
  | nil => exact ⟨fun _ => rfl, fun _ => rfl⟩
  | cons e q =>
    constructor
    · exact fun h => absurd h (Option.some_ne_none _)
    · exact fun h => absurd h (Nat.succ_ne_zero _)

theorem room_of_blocked {f : Fifo T} {c : FifoCall T} (h : c.Blocked f) : f.room c.cond = 0 := by
  cases c with
  | enq e blocking => exact (enq_eq_none.1 h.2).2
  | deq => exact deq_eq_none.1 h

theorem waits_of_blocked {f : Fifo T} {c : FifoCall T} (h : c.Blocked f) : c.Waits f.max := by
  cases c with
  | enq e blocking => exact ⟨h.1, (enq_eq_none.1 h.2).1⟩
  | deq => trivial

theorem queue_new (max : ℕ) : Queue (FifoSys.new max : FifoSys T) where
  inOrder := rfl
  bounded _ := Nat.zero_le _
  due c := by
    rintro ⟨t, ht, -⟩
    exact absurd ht List.not_mem_nil
  waits t ht := absurd ht List.not_mem_nil

theorem mem_signal {c : FifoCond} {threads : List (FifoThread T)} {u : FifoThread T}
    (h : c.signal rest w = some threads) (hu : u ∈ threads) :
    u ∈ rest ∨ ∃ v ∈ rest, v.pc = .waiting ∧ u.call = v.call := by
  rcases FifoCond.signal_cases h with ⟨-, rfl⟩ | ⟨v, others, hwaits, hrest, hthreads⟩
  · exact .inl hu
  · rcases List.mem_cons.1 (hthreads.mem_iff.1 hu) with rfl | hu
    · exact .inr ⟨v, hrest.mem_iff.2 List.mem_cons_self, (FifoThread.waitsOn_iff.1 hwaits).2, rfl⟩
    · exact .inl (hrest.mem_iff.2 (List.mem_cons_of_mem v hu))

/-- The calls that waited are still ones that can wait. -/
theorem Queue.waits_signal (h : Queue s) {c : FifoCond} {threads : List (FifoThread T)}
    (hrest : ∀ u ∈ rest, u ∈ s.threads) (hsig : c.signal rest w = some threads) :
    ∀ u ∈ threads, u.pc ≠ .start → u.call.Waits s.fifo.max := by
  intro u hu hpc
  rcases mem_signal hsig hu with hu | ⟨v, hv, hvpc, hcall⟩
  · exact h.waits u (hrest u hu) hpc
  · rw [hcall]
    refine h.waits v (hrest v hv) ?_
    rw [hvpc]
    exact FifoPc.noConfusion

/-! ## A call obtains the mutex -/

/-- It has to wait. -/
theorem Queue.wait (h : Queue s) (ht : s.threads.Perm (t :: rest))
    (hblocked : t.call.Blocked s.fifo) :
    Queue { s with threads := { t with pc := .waiting } :: rest } := by
  refine ⟨h.inOrder, h.bounded, fun c => ?_, fun u hu hpc => ?_⟩
  · by_cases hc : t.call.cond = c
    · show Due c (s.fifo.room c) _
      rw [← hc, room_of_blocked hblocked]
      exact due_zero
    · have hrest := (due_cons_of_ne hc).1 ((h.due c).perm ht)
      exact (due_cons_of_ne (t := { t with pc := .waiting }) hc).2 hrest
  · rcases List.mem_cons.1 hu with rfl | hu
    · exact waits_of_blocked hblocked
    · exact h.waits u ((mem_of_pick ht).2 (.inr hu)) hpc

/-- It is not to wait, and returns. -/
theorem Queue.refuse (h : Queue s) (ht : s.threads.Perm (t :: rest)) {e : T}
    (hcall : t.call = .enq e false) (hfull : s.fifo.enq e = none) :
    Queue { s with threads := rest, refused := e :: s.refused } := by
  refine ⟨h.inOrder, h.bounded, fun c => ?_,
    fun u hu hpc => h.waits u ((mem_of_pick ht).2 (.inr hu)) hpc⟩
  by_cases hc : t.call.cond = c
  · show Due c (s.fifo.room c) rest
    have hhas : c = .hasSpace := by
      rw [← hc, hcall]
      rfl
    rw [hhas, (enq_eq_none.1 hfull).2]
    exact due_zero
  · exact (due_cons_of_ne hc).1 ((h.due c).perm ht)

/-- An element more is for one that waits to take it, and a place less was
for the call itself. -/
theorem Queue.due_added (h : Queue s) (ht : s.threads.Perm (t :: rest))
    (hcond : t.call.cond = .hasSpace) (e : T) {threads : List (FifoThread T)}
    (hsig : FifoCond.nonEmpty.signal rest w = some threads) (c : FifoCond) :
    Due c (Fifo.room ⟨s.fifo.q ++ [e], s.fifo.max⟩ c) threads := by
  cases c with
  | nonEmpty =>
    show Due .nonEmpty (s.fifo.q ++ [e]).length threads
    have hrest : Due .nonEmpty s.fifo.q.length rest :=
      (due_cons_of_ne (by rw [hcond]; exact FifoCond.noConfusion)).1 ((h.due .nonEmpty).perm ht)
    rw [List.length_append, List.length_singleton]
    exact hrest.signal hsig
  | hasSpace =>
    show Due .hasSpace (s.fifo.max - (s.fifo.q ++ [e]).length) threads
    rw [List.length_append, List.length_singleton]
    rcases Nat.eq_zero_or_pos (s.fifo.max - s.fifo.q.length) with hzero | hpos
    · rw [Nat.sub_add_eq, hzero, Nat.zero_sub]
      exact due_zero
    · have hroom : s.fifo.room .hasSpace = s.fifo.max - (s.fifo.q.length + 1) + 1 := by
        show s.fifo.max - s.fifo.q.length = _
        omega
      have hall := (h.due .hasSpace).perm ht
      rw [hroom] at hall
      exact hall.tail.signal_of_ne FifoCond.noConfusion hsig

/-- It adds its element. -/
theorem Queue.add (h : Queue s) (ht : s.threads.Perm (t :: rest))
    (hcond : t.call.cond = .hasSpace) {e : T} {f : Fifo T} (henq : s.fifo.enq e = some f)
    {threads : List (FifoThread T)} (hsig : FifoCond.nonEmpty.signal rest w = some threads) :
    Queue { s with fifo := f, threads := threads, added := s.added ++ [e] } := by
  unfold Fifo.enq at henq
  rw [Option.ite_none_right_eq_some] at henq
  obtain ⟨hspace, rfl⟩ := henq.imp_right Option.some.inj
  have hrest : ∀ u ∈ rest, u ∈ s.threads := fun u hu => (mem_of_pick ht).2 (.inr hu)
  refine ⟨?_, fun hmax => ?_, h.due_added ht hcond e hsig, h.waits_signal hrest hsig⟩
  · show s.added ++ [e] = s.taken ++ (s.fifo.q ++ [e])
    rw [h.inOrder, List.append_assoc]
  · show (s.fifo.q ++ [e]).length ≤ s.fifo.max
    change 0 < s.fifo.max at hmax
    rw [List.length_append, List.length_singleton]
    omega

/-- An element less was for the call itself, and a place more, where there
is a limit, is for one that waits to add. -/
theorem Queue.due_taken (h : Queue s) (ht : s.threads.Perm (t :: rest))
    (hcond : t.call.cond = .nonEmpty) {e : T} {q : List T} (hq : s.fifo.q = e :: q)
    {threads : List (FifoThread T)}
    (hsig : if s.fifo.max ≠ 0 ∧ q.length < s.fifo.max then
      FifoCond.hasSpace.signal rest w = some threads else threads = rest) (c : FifoCond) :
    Due c (Fifo.room ⟨q, s.fifo.max⟩ c) threads := by
  cases c with
  | nonEmpty =>
    have hall := (h.due .nonEmpty).perm ht
    rw [Fifo.room, hq, List.length_cons] at hall
    show Due .nonEmpty q.length threads
    split at hsig
    · exact hall.tail.signal_of_ne FifoCond.noConfusion hsig
    · rw [hsig]
      exact hall.tail
  | hasSpace =>
    have hrest : Due .hasSpace (s.fifo.room .hasSpace) rest :=
      (due_cons_of_ne (by rw [hcond]; exact FifoCond.noConfusion)).1 ((h.due .hasSpace).perm ht)
    rw [Fifo.room, hq, List.length_cons] at hrest
    have hbounded := h.bounded
    rw [hq, List.length_cons] at hbounded
    show Due .hasSpace (s.fifo.max - q.length) threads
    split at hsig
    · -- the place that became free is the one that is signalled
      rename_i htest
      have hle := hbounded (Nat.pos_of_ne_zero htest.1)
      have hroom : s.fifo.max - q.length = s.fifo.max - (q.length + 1) + 1 := by omega
      rw [hroom]
      exact hrest.signal hsig
    · rename_i htest
      have hzero : s.fifo.max - q.length = 0 := by
        by_contra hne
        exact htest ⟨show s.fifo.max ≠ 0 by omega, show q.length < s.fifo.max by omega⟩
      rw [hzero]
      exact due_zero

/-- It takes an element. -/
theorem Queue.take (h : Queue s) (ht : s.threads.Perm (t :: rest))
    (hcond : t.call.cond = .nonEmpty) {e : T} {q : List T} (hq : s.fifo.q = e :: q)
    {threads : List (FifoThread T)}
    (hsig : if s.fifo.max ≠ 0 ∧ q.length < s.fifo.max then
      FifoCond.hasSpace.signal rest w = some threads else threads = rest) :
    Queue { s with fifo := ⟨q, s.fifo.max⟩, threads := threads, taken := s.taken ++ [e] } := by
  have hrest : ∀ u ∈ rest, u ∈ s.threads := fun u hu => (mem_of_pick ht).2 (.inr hu)
  have hdue := h.due_taken ht hcond hq hsig
  have hwaits : ∀ u ∈ threads, u.pc ≠ .start → u.call.Waits s.fifo.max := by
    split at hsig
    · exact h.waits_signal hrest hsig
    · exact fun u hu hpc => h.waits u (hrest u (hsig ▸ hu)) hpc
  refine ⟨?_, fun hmax => ?_, hdue, hwaits⟩
  · show s.added = s.taken ++ [e] ++ q
    rw [h.inOrder, hq, List.append_assoc]
    rfl
  · show q.length ≤ s.fifo.max
    have hle := h.bounded hmax
    rw [hq, List.length_cons] at hle
    omega

/-- **A call obtains the mutex**, and does one of these. -/
theorem Queue.run (h : Queue s) (ht : s.threads.Perm (t :: rest))
    (hrun : s.run t rest w = some s') : Queue s' := by
  cases (passed_of_run hrun).2 with
  | waits hblocked hs =>
    rw [hs]
    exact h.wait ht hblocked
  | refused e hcall hfull hs =>
    rw [hs]
    exact h.refuse ht hcall hfull
  | added e blocking f threads hcall henq hsig hs =>
    rw [hs]
    exact h.add ht (by rw [hcall]; rfl) henq hsig
  | taken e f threads hcall hdeq hsig hs =>
    obtain ⟨q, hq, hf⟩ := deq_eq_some hdeq
    dsimp only at hq hf
    subst hf
    rw [hs]
    exact h.take ht (by rw [hcall]; rfl) hq hsig

/-- **One step** keeps the invariant. -/
theorem Queue.step {a : FifoSys.Act T} (h : Queue s) (hs : s.step a = some s') : Queue s' := by
  cases a with
  | call c =>
    obtain rfl := Option.some.inj hs
    refine ⟨h.inOrder, h.bounded, fun c' => ?_, fun u hu hpc => ?_⟩
    · rintro ⟨u, hu, hwaits⟩
      have hu' : u ∈ s.threads := by
        rw [List.mem_append, List.mem_singleton] at hu
        refine hu.resolve_right ?_
        rintro rfl
        exact FifoPc.noConfusion (FifoThread.waitsOn_iff.1 hwaits).2
      have hle := h.due c' ⟨u, hu', hwaits⟩
      rw [List.countP_append]
      exact Nat.le_add_right_of_le hle
    · rw [List.mem_append, List.mem_singleton] at hu
      rcases hu with hu | rfl
      · exact h.waits u hu hpc
      · exact absurd rfl hpc
  | run k w =>
    obtain ⟨t, hk, hrun⟩ := Option.bind_eq_some_iff.1 hs
    exact h.run (perm_eraseIdx hk) hrun
  | wake k =>
    obtain ⟨t, hk, hs⟩ := Option.bind_eq_some_iff.1 hs
    rw [Option.ite_none_right_eq_some] at hs
    obtain ⟨hpc, rfl⟩ := hs.imp_right Option.some.inj
    obtain ⟨hlt, -⟩ := List.getElem?_eq_some_iff.1 hk
    have ht := perm_eraseIdx hk
    have hset := List.set_perm_cons_eraseIdx hlt { t with pc := .woken }
    refine ⟨h.inOrder, h.bounded, fun c => ?_, fun u hu hu' => ?_⟩
    · -- one that waits is gone, nobody is signalled less
      have hdue := (h.due c).perm ht
      have hnot : ∀ pc, pc ≠ .signalled →
          FifoThread.signalledOn c { t with pc := pc } ≠ true :=
        fun pc hne hsig => hne (FifoThread.signalledOn_iff.1 hsig).2
      have hnot' := hnot t.pc (by rw [hpc]; exact FifoPc.noConfusion)
      refine Due.perm ?_ hset.symm
      rintro ⟨u, hu, hwaits⟩
      have hu' : u ∈ s.threads.eraseIdx k := by
        refine (List.mem_cons.1 hu).resolve_left ?_
        rintro rfl
        exact FifoPc.noConfusion (FifoThread.waitsOn_iff.1 hwaits).2
      have hle := hdue ⟨u, List.mem_cons_of_mem t hu', hwaits⟩
      rw [List.countP_cons_of_neg hnot'] at hle
      rw [List.countP_cons_of_neg (hnot .woken FifoPc.noConfusion)]
      exact hle
    · rcases List.mem_cons.1 (hset.mem_iff.1 hu) with rfl | hu
      · refine h.waits t ((mem_of_pick ht).2 (.inl rfl)) ?_
        rw [hpc]
        exact FifoPc.noConfusion
      · exact h.waits u ((mem_of_pick ht).2 (.inr hu)) hu'

/-! ## The calls come to an end -/

/-- How often a call can still obtain the mutex, at most. -/
def FifoPc.weight : FifoPc → ℕ
  | .waiting => 1
  | _ => 2

theorem FifoPc.weight_le (pc : FifoPc) : pc.weight ≤ 2 := by
  cases pc <;> decide

/-- The same of all of them. -/
def turns (threads : List (FifoThread T)) : ℕ := total (fun t => t.pc.weight) threads

theorem turns_cons (t : FifoThread T) (threads : List (FifoThread T)) :
    turns (t :: threads) = t.pc.weight + turns threads := rfl

theorem turns_perm {threads threads' : List (FifoThread T)} (h : threads.Perm threads') :
    turns threads = turns threads' := total_perm _ h

theorem turns_le (threads : List (FifoThread T)) : turns threads ≤ 2 * threads.length :=
  total_le _ (fun t => t.pc.weight_le) threads

theorem turns_signal {c : FifoCond} {threads : List (FifoThread T)}
    (h : c.signal rest w = some threads) : turns threads ≤ turns rest + 1 := by
  rcases FifoCond.signal_cases h with ⟨-, rfl⟩ | ⟨u, others, hwaits, hrest, hthreads⟩
  · exact Nat.le_succ _
  · rw [turns_perm hthreads, turns_perm hrest, turns_cons, turns_cons,
      (FifoThread.waitsOn_iff.1 hwaits).2]
    show 2 + turns others ≤ 1 + turns others + 1
    omega

/-- **A call that obtains the mutex** waits, or returns and wakes one
other. -/
theorem turns_run (h : s.run t rest w = some s') : turns s'.threads < turns (t :: rest) := by
  obtain ⟨hpc, hpassed⟩ := passed_of_run h
  have htwo : t.pc.weight = 2 := by
    cases hp : t.pc with
    | waiting => exact absurd hp hpc
    | start => rfl
    | signalled => rfl
    | woken => rfl
  rw [turns_cons, htwo]
  cases hpassed with
  | waits hblocked hs =>
    subst hs
    show turns ({ t with pc := .waiting } :: rest) < _
    rw [turns_cons]
    show 1 + turns rest < _
    omega
  | refused e hcall hfull hs =>
    subst hs
    show turns rest < _
    omega
  | added e blocking f threads hcall henq hsig hs =>
    subst hs
    have hle := turns_signal hsig
    show turns threads < _
    omega
  | taken e f threads hcall hdeq hsig hs =>
    subst hs
    show turns threads < _
    split at hsig
    · have hle := turns_signal hsig
      omega
    · rw [hsig]
      omega

theorem turns_step {k : ℕ} (h : s.step (.run k w) = some s') :
    turns s'.threads < turns s.threads := by
  obtain ⟨t, hk, hrun⟩ := Option.bind_eq_some_iff.1 h
  rw [turns_perm (perm_eraseIdx hk)]
  exact turns_run hrun

/-! ## Who is left -/

/-- A call that does not wait obtains the mutex. -/
theorem exists_run (s : FifoSys T) (rest : List (FifoThread T)) (hpc : t.pc ≠ .waiting) :
    ∃ w s', s.run t rest w = some s' := by
  unfold FifoSys.run
  simp only [if_neg hpc]
  cases t.call with
  | enq e blocking =>
    dsimp only
    unfold FifoSys.enq
    split
    · obtain ⟨w, threads, hsig⟩ := FifoCond.nonEmpty.exists_signal rest
      exact ⟨w, _, by rw [hsig, Option.map_some]⟩
    · split
      · exact ⟨0, _, rfl⟩
      · exact ⟨0, _, rfl⟩
  | deq =>
    dsimp only
    unfold FifoSys.deq
    split
    · exact ⟨0, _, rfl⟩
    · split
      · obtain ⟨w, threads, hsig⟩ := FifoCond.hasSpace.exists_signal rest
        exact ⟨w, _, by rw [hsig, Option.map_some]⟩
      · exact ⟨0, _, rfl⟩

theorem waits_of_stuck (h : ∀ k w, s.step (.run k w) = none) (ht : t ∈ s.threads) :
    t.pc = .waiting := by
  by_contra hpc
  obtain ⟨k, hk⟩ := List.mem_iff_getElem?.1 ht
  obtain ⟨w, s', hrun⟩ := exists_run s (s.threads.eraseIdx k) hpc
  have hnone := h k w
  rw [FifoSys.step, hk, Option.bind_some, hrun] at hnone
  exact Option.some_ne_none _ hnone

/-- **Where nobody can go on**, nobody is signalled, so there is nothing
to go on with. -/
theorem Queue.blocked (h : Queue s) (hstuck : ∀ k w, s.step (.run k w) = none)
    (ht : t ∈ s.threads) : t.call.Blocked s.fifo := by
  have hpc := waits_of_stuck hstuck ht
  have hnone : s.threads.countP (·.signalledOn t.call.cond) = 0 := by
    rw [List.countP_eq_zero]
    intro u hu hsig
    rw [FifoThread.signalledOn_iff, waits_of_stuck hstuck hu] at hsig
    exact FifoPc.noConfusion hsig.2
  have hroom := h.due t.call.cond ⟨t, ht, FifoThread.waitsOn_iff.2 ⟨rfl, hpc⟩⟩
  rw [hnone, Nat.le_zero_eq] at hroom
  have hwaits := h.waits t ht (by rw [hpc]; exact FifoPc.noConfusion)
  cases hcall : t.call with
  | enq e blocking =>
    rw [hcall] at hroom hwaits
    exact ⟨hwaits.1, enq_eq_none.2 ⟨hwaits.2, hroom⟩⟩
  | deq =>
    rw [hcall] at hroom
    exact deq_eq_none.2 hroom

theorem Queue.blocks (h : Queue s) : Blocks s where
  inOrder := h.inOrder
  bounded := h.bounded
  signalled := h.due
  ends as t hruns hexec := by
    have hle := length_le_of_steps (fun s : FifoSys T => turns s.threads)
      (C := fun _ a => ∃ k w, a = FifoSys.Act.run k w)
      (fun s a s' hrun hs => by
        obtain ⟨k, w, rfl⟩ := hrun
        exact turns_step hs)
      (steps_of_forall fun a ha _ => hruns a ha) hexec
    exact Nat.le_trans hle (turns_le s.threads)
  blocked hstuck t ht := h.blocked hstuck ht

end

/-- **The queue blocks when it is full or empty, and not otherwise.** For
any number of threads that call `enq` and `deq`, in any order, whomever
the signals wake and whatever waits return for no reason: what is taken is
what was queued, in order; the calls that there are come to an end within
twice their number of turns, and those that are left find the queue full
or empty. -/
theorem along_blocks {T : Type} (max : ℕ) (acts : List (FifoSys.Act T)) :
    Along FifoSys.step Blocks (.new max) acts :=
  along_invariant (fun _ _ _ h hs => h.step hs) (fun _ h => h.blocks) (queue_new max)

end Yfs
