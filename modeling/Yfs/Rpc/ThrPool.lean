import Mathlib.Algebra.Group.Nat.Defs
import Mathlib.Data.Bool.Basic
import Mathlib.Data.List.Nodup
import Yfs.Common.Pick
import Yfs.Common.Run

/-!
# The thread pool

`ThrPool` of `thr_pool.cc` over `fifo` of `fifo.h`: a bounded queue of
jobs, some number of workers, and a destructor that queues one poison pill
for each of them. Jobs are refused or wait where the queue is full; pills
always wait. `along_drains` says that nothing is executed twice, out of
order or after it was refused, and that the workers have done all that was
accepted by the time the last of them has exited.
-/

namespace Yfs

open Common

/-! ## The queue -/

/-- `fifo`. -/
structure Fifo (T : Type) where
  /-- `q_`. -/
  q : List T
  /-- `max_`; 0 is no limit. -/
  max : ℕ

namespace Fifo

variable {T : Type}

/-- `enq`, once it has the mutex; `none` where there is no space. -/
def enq (f : Fifo T) (e : T) : Option (Fifo T) :=
  if f.max = 0 ∨ f.q.length < f.max then some { f with q := f.q ++ [e] } else none

/-- `deq`, once it has the mutex; `none` where there is nothing. -/
def deq (f : Fifo T) : Option (T × Fifo T) :=
  match f.q with
  | [] => none
  | e :: q => some (e, { f with q := q })

end Fifo

/-! ## The pool -/

/-- `job_t`: a job, known by the number of `addJob` calls before it, or a
job whose function is null. -/
inductive JobT where
  | job (i : ℕ)
  | pill
deriving DecidableEq

/-- Where a worker is. -/
inductive WorkerPc where
  /-- In `takeJob`. -/
  | idle
  /-- About to call the function of a job. -/
  | running (i : ℕ)
  | exited
deriving DecidableEq

structure Worker where
  pc : WorkerPc
  /-- The pills that it took. -/
  pills : ℕ
deriving DecidableEq

/-- The job a worker has. -/
def Worker.job (w : Worker) : Option ℕ :=
  match w.pc with
  | .running i => some i
  | _ => none

def Worker.Exited (w : Worker) : Prop := w.pc = .exited

instance (w : Worker) : Decidable w.Exited := inferInstanceAs (Decidable (_ = _))

/-- A pool, and what has been done with it. -/
structure PoolSys where
  /-- `jobq_`. -/
  jobq : Fifo JobT
  workers : List Worker
  /-- The number of calls of `addJob`, -/
  added : ℕ
  /-- those that have not returned, -/
  adding : List ℕ
  /-- the jobs for which it returned true, in order, -/
  accepted : List ℕ
  /-- and those for which it returned false. -/
  refused : List ℕ
  /-- The jobs that were taken, in order. -/
  taken : List ℕ
  /-- The jobs whose function was called. -/
  executed : List ℕ
  /-- The destructor has started, -/
  destroying : Bool
  /-- and has queued so many pills. -/
  pills : ℕ

namespace PoolSys

/-- `ThrPool::ThrPool`, with the limit as an `unsigned int`. -/
def init (n : ℕ) : PoolSys :=
  ⟨⟨[], 100 * n % 2 ^ 32⟩, List.replicate n ⟨.idle, 0⟩, 0, [], [], [], [], [], false, 0⟩

/-- What can happen. -/
inductive Act where
  /-- `addJob` is called. -/
  | add
  /-- A call of `addJob` obtains the mutex of the queue. -/
  | enq (k : ℕ)
  /-- A worker obtains it in `takeJob`. -/
  | take (k : ℕ)
  /-- A worker calls the function of its job. -/
  | run (k : ℕ)
  /-- `~ThrPool` is called. -/
  | destroy
  /-- It queues a pill. -/
  | pill

/-- The section of `enq` for a job. -/
def addJob (blocking : Bool) (s : PoolSys) (i : ℕ) (rest : List ℕ) : Option PoolSys :=
  match s.jobq.enq (.job i) with
  | some f => some { s with jobq := f, adding := rest, accepted := s.accepted ++ [i] }
  | none => if blocking then none else some { s with adding := rest, refused := i :: s.refused }

/-- The section of `deq`, and the test for a pill. -/
def takeJob (s : PoolSys) (w : Worker) (rest : List Worker) : Option PoolSys :=
  s.jobq.deq.map fun r =>
    match r.1 with
    | .job i =>
      { s with
        jobq := r.2, taken := s.taken ++ [i], workers := { w with pc := .running i } :: rest }
    | .pill => { s with jobq := r.2, workers := ⟨.exited, w.pills + 1⟩ :: rest }

/-- One step of a pool of `n` workers. -/
def step (n : ℕ) (blocking : Bool) (s : PoolSys) : Act → Option PoolSys
  | .add =>
    if s.destroying then none
    else some { s with added := s.added + 1, adding := s.added :: s.adding }
  | .enq k => s.adding[k]?.bind fun i => s.addJob blocking i (s.adding.eraseIdx k)
  | .take k =>
    s.workers[k]?.bind fun w => if w.pc = .idle then s.takeJob w (s.workers.eraseIdx k) else none
  | .run k =>
    s.workers[k]?.bind fun w =>
      w.job.map fun i =>
        { s with
          executed := i :: s.executed
          workers := { w with pc := .idle } :: s.workers.eraseIdx k }
  | .destroy =>
    if s.destroying = true ∨ s.adding ≠ [] then none else some { s with destroying := true }
  | .pill =>
    if s.destroying = false ∨ n ≤ s.pills then none
    else (s.jobq.enq .pill).map fun f => { s with jobq := f, pills := s.pills + 1 }

end PoolSys

/-- What the pool promises. -/
structure Drains (n : ℕ) (s : PoolSys) : Prop where
  once : s.executed.Nodup
  inOrder : s.taken <+: s.accepted
  refused : ∀ i ∈ s.refused, i ∉ s.executed
  bounded : s.jobq.q.length ≤ 100 * n
  drained : (∀ w ∈ s.workers, w.Exited) →
    (∀ i ∈ s.accepted, s.executed.count i = 1) ∧ s.jobq.q = [] ∧ ∀ w ∈ s.workers, w.pills = 1

/-! ## The invariant -/

/-- What is in the queue: jobs, then pills. Once a worker has exited, only
pills. -/
structure Queued (s : PoolSys) (js : List ℕ) (m : ℕ) : Prop where
  q : s.jobq.q = js.map .job ++ List.replicate m .pill
  accepted : s.accepted = s.taken ++ js
  pills : s.pills = m + s.workers.countP fun w => w.Exited
  nil : 0 < (s.workers.countP fun w => w.Exited) → js = []

/-- The invariant. -/
structure Pool (n : ℕ) (s : PoolSys) : Prop where
  queued : ∃ js m, Queued s js m
  max : s.jobq.max = 100 * n
  bounded : s.jobq.q.length ≤ 100 * n
  /-- The calls of `addJob` are told apart. -/
  nodup : (s.adding ++ (s.refused ++ s.accepted)).Nodup
  lt : ∀ i ∈ s.adding ++ (s.refused ++ s.accepted), i < s.added
  /-- What was taken has been executed, or a worker has it. -/
  work : (s.executed ++ s.workers.filterMap Worker.job).Perm s.taken
  one : ∀ w ∈ s.workers, w.pills = if w.Exited then 1 else 0
  length : s.workers.length = n
  pills_le : s.pills ≤ n
  quiet : s.destroying = true → s.adding = []
  begun : 0 < s.pills → s.destroying = true

section

variable {n : ℕ} {blocking : Bool} {s s' : PoolSys} {w : Worker} {rest : List Worker}

theorem pool_init (hn : 100 * n < 2 ^ 32) : Pool n (.init n) where
  queued := by
    refine ⟨[], 0, rfl, rfl, ?_, fun _ => rfl⟩
    have hnone : (List.replicate n (⟨.idle, 0⟩ : Worker)).countP (fun w => w.Exited) = 0 := by
      rw [List.countP_eq_zero]
      intro w hw
      rw [List.eq_of_mem_replicate hw]
      decide
    show 0 = 0 + _
    rw [PoolSys.init, hnone]
  max := Nat.mod_eq_of_lt hn
  bounded := Nat.zero_le _
  nodup := List.nodup_nil
  lt i hi := absurd hi List.not_mem_nil
  work := by
    have hnone : (List.replicate n (⟨.idle, 0⟩ : Worker)).filterMap Worker.job = [] := by
      rw [List.filterMap_eq_nil_iff]
      intro w hw
      rw [List.eq_of_mem_replicate hw]
      rfl
    show ([] ++ (List.replicate n (⟨.idle, 0⟩ : Worker)).filterMap Worker.job).Perm []
    rw [hnone]
    exact List.Perm.nil
  one w hw := by
    rw [List.eq_of_mem_replicate hw]
    decide
  length := List.length_replicate
  pills_le := Nat.zero_le n
  quiet h := absurd h Bool.false_ne_true
  begun h := absurd h (Nat.lt_irrefl 0)

/-- What a queue with space does. -/
theorem enq_eq_some {T : Type} {f f' : Fifo T} {e : T} (hmax : 0 < f.max)
    (h : f.enq e = some f') : f.q.length < f.max ∧ f' = { f with q := f.q ++ [e] } := by
  unfold Fifo.enq at h
  rw [Option.ite_none_right_eq_some] at h
  exact ⟨h.1.resolve_left (by omega), (Option.some.inj h.2).symm⟩

theorem deq_eq_some {T : Type} {f : Fifo T} {r : T × Fifo T} (h : f.deq = some r) :
    ∃ q, f.q = r.1 :: q ∧ r.2 = { f with q := q } := by
  unfold Fifo.deq at h
  split at h
  · exact absurd h.symm (Option.some_ne_none r)
  rename_i e q hfront
  obtain rfl := Option.some.inj h
  exact ⟨q, hfront, rfl⟩

/-- `addJob` goes through the queue. No pill is there yet, since the
destructor waits for the call. -/
theorem Pool.addJob {i : ℕ} {adding : List ℕ} (h : Pool n s) (hn : 0 < n)
    (hperm : s.adding.Perm (i :: adding)) (hs : s.addJob blocking i adding = some s') :
    Pool n s' := by
  have hdes : s.destroying = false := by
    refine Bool.eq_false_of_not_eq_true fun hdes => ?_
    rw [h.quiet hdes] at hperm
    exact absurd hperm.symm (List.cons_ne_nil _ _ ∘ List.perm_nil.1)
  have hpills : s.pills = 0 := by
    by_contra hpos
    rw [h.begun (by omega)] at hdes
    exact Bool.noConfusion hdes
  unfold PoolSys.addJob at hs
  split at hs
  · rename_i f hf
    obtain rfl := Option.some.inj hs
    have hmax := h.max
    obtain ⟨hlen, rfl⟩ := enq_eq_some (by omega) hf
    obtain ⟨js, m, hq⟩ := h.queued
    -- without pills in the queue, the job comes right behind the others
    have hm := hq.pills
    have hcalls : (adding ++ (s.refused ++ (s.accepted ++ [i]))).Perm
        (s.adding ++ (s.refused ++ s.accepted)) := by
      refine List.Perm.trans ?_ (hperm.symm.append_right _)
      rw [← List.append_assoc, ← List.append_assoc]
      refine (List.perm_append_singleton i _).trans (List.Perm.cons i ?_)
      exact List.Perm.of_eq (List.append_assoc ..)
    refine ⟨⟨js ++ [i], 0, ?_, ?_, ?_, ?_⟩, h.max, ?_, ?_, ?_, h.work, h.one, h.length, h.pills_le,
      fun hd => ?_, h.begun⟩
    · show s.jobq.q ++ [.job i] = _
      rw [hq.q, show m = 0 by omega]
      simp
    · show s.accepted ++ [i] = s.taken ++ (js ++ [i])
      rw [hq.accepted, List.append_assoc]
    · show s.pills = 0 + s.workers.countP _
      omega
    · intro hpos
      have : 0 < s.workers.countP (fun w => w.Exited) := hpos
      omega
    · show (s.jobq.q ++ [JobT.job i]).length ≤ 100 * n
      rw [List.length_append, List.length_singleton]
      omega
    · exact hcalls.nodup_iff.2 h.nodup
    · exact fun j hj => h.lt j (hcalls.subset hj)
    · rw [hdes] at hd
      exact absurd hd Bool.false_ne_true
  · split at hs
    · exact absurd hs.symm (Option.some_ne_none s')
    obtain rfl := Option.some.inj hs
    have hcalls : (adding ++ ((i :: s.refused) ++ s.accepted)).Perm
        (s.adding ++ (s.refused ++ s.accepted)) :=
      List.perm_middle.trans (hperm.symm.append_right _)
    obtain ⟨js, m, hq⟩ := h.queued
    refine ⟨⟨js, m, hq.q, hq.accepted, hq.pills, hq.nil⟩, h.max, h.bounded,
      hcalls.nodup_iff.2 h.nodup, fun j hj => h.lt j (hcalls.subset hj), h.work, h.one, h.length,
      h.pills_le, fun hd => ?_, h.begun⟩
    rw [hdes] at hd
    exact absurd hd Bool.false_ne_true

/-- The workers, with one apart. -/
theorem countP_exited (ht : s.workers.Perm (w :: rest)) :
    (s.workers.countP fun w => w.Exited) =
      (rest.countP fun w => w.Exited) + if w.Exited then 1 else 0 := by
  rw [ht.countP_eq, List.countP_cons]
  simp only [decide_eq_true_eq]

/-- What a worker does next leaves the others and the calls alone. -/
theorem Pool.worker (h : Pool n s) (ht : s.workers.Perm (w :: rest)) {w' : Worker}
    (hworkers : s'.workers = w' :: rest) (hqueued : ∃ js m, Queued s' js m)
    (hmax : s'.jobq.max = s.jobq.max) (hlen : s'.jobq.q.length ≤ s.jobq.q.length)
    (hcalls : s'.adding = s.adding ∧ s'.refused = s.refused ∧ s'.accepted = s.accepted ∧
      s'.added = s.added ∧ s'.pills = s.pills ∧ s'.destroying = s.destroying)
    (hwork : (s'.executed ++ s'.workers.filterMap Worker.job).Perm s'.taken)
    (hone : w'.pills = if w'.Exited then 1 else 0) : Pool n s' := by
  obtain ⟨hadding, hrefused, haccepted, hadded, hpills, hdes⟩ := hcalls
  refine ⟨hqueued, hmax.trans h.max, Nat.le_trans hlen h.bounded, ?_, ?_, hwork, fun v hv => ?_,
    ?_, ?_, ?_, ?_⟩
  · rw [hadding, hrefused, haccepted]
    exact h.nodup
  · rw [hadding, hrefused, haccepted, hadded]
    exact h.lt
  · rw [hworkers] at hv
    obtain rfl | hv := List.mem_cons.1 hv
    · exact hone
    · exact h.one v ((mem_of_pick ht).2 (.inr hv))
  · rw [hworkers, ← h.length, ht.length_eq, List.length_cons, List.length_cons]
  · rw [hpills]
    exact h.pills_le
  · rw [hadding, hdes]
    exact h.quiet
  · rw [hpills, hdes]
    exact h.begun

/-- A worker that has neither a job nor exited: all else that the invariant
says is of the others. -/
theorem Pool.idle (h : Pool n s) (ht : s.workers.Perm (w :: rest)) (hidle : w.pc = .idle) :
    (s.workers.countP fun w => w.Exited) = (rest.countP fun w => w.Exited) ∧ w.pills = 0 ∧
      (s.executed ++ rest.filterMap Worker.job).Perm s.taken := by
  have hjob : w.job = none := by
    unfold Worker.job
    rw [hidle]
  have hnot : ¬ w.Exited := by
    unfold Worker.Exited
    rw [hidle]
    exact WorkerPc.noConfusion
  refine ⟨?_, ?_, ?_⟩
  · rw [countP_exited ht, if_neg hnot, Nat.add_zero]
  · rw [h.one w ((mem_of_pick ht).2 (.inl rfl)), if_neg hnot]
  · refine List.Perm.trans ?_ h.work
    refine List.Perm.append_left _ (List.Perm.trans ?_ (ht.filterMap _).symm)
    rw [List.filterMap_cons_none hjob]

/-- **`takeJob`**: the job that was accepted first, or a pill, and then
nothing but pills is left. -/
theorem Pool.takeJob (h : Pool n s) (ht : s.workers.Perm (w :: rest)) (hidle : w.pc = .idle)
    (hs : s.takeJob w rest = some s') : Pool n s' := by
  obtain ⟨hexited, hpills, hwork⟩ := h.idle ht hidle
  obtain ⟨js, m, hq⟩ := h.queued
  obtain ⟨⟨e, f⟩, hdeq, rfl⟩ := Option.map_eq_some_iff.1 hs
  obtain ⟨q, hfront, rfl⟩ := deq_eq_some hdeq
  have hlen : q.length ≤ s.jobq.q.length := by
    rw [hfront]
    exact Nat.le_succ _
  have hqueue := hq.q
  rw [hfront] at hqueue
  rcases js with _ | ⟨i, js⟩
  · -- pills only
    rcases m with _ | m
    · exact absurd hqueue (List.cons_ne_nil _ _)
    obtain ⟨rfl, rfl⟩ := List.cons.inj hqueue
    refine h.worker ht rfl ⟨[], m, rfl, hq.accepted, ?_, fun _ => rfl⟩ rfl hlen
      ⟨rfl, rfl, rfl, rfl, rfl, rfl⟩ hwork ?_
    · have hcount := hq.pills
      show s.pills = m + List.countP _ (⟨.exited, w.pills + 1⟩ :: rest)
      rw [List.countP_cons_of_pos (by simp [Worker.Exited])]
      omega
    · show w.pills + 1 = _
      rw [hpills]
      rfl
  · obtain ⟨rfl, rfl⟩ := List.cons.inj hqueue
    -- a job is left, so nobody has taken a pill
    have hnone : (rest.countP fun w => w.Exited) = 0 := by
      by_contra hpos
      exact absurd (hq.nil (by omega)) (List.cons_ne_nil _ _)
    refine h.worker ht rfl ⟨js, m, rfl, ?_, ?_, fun hpos => ?_⟩ rfl hlen
      ⟨rfl, rfl, rfl, rfl, rfl, rfl⟩ ?_ ?_
    · show s.accepted = (s.taken ++ [i]) ++ js
      rw [hq.accepted, List.append_assoc]
      rfl
    · have hcount := hq.pills
      show s.pills = m + List.countP _ ({ w with pc := .running i } :: rest)
      rw [List.countP_cons_of_neg (by simp [Worker.Exited])]
      omega
    · have hpos' : 0 < List.countP (fun w : Worker => decide w.Exited)
        ({ w with pc := .running i } :: rest) := hpos
      rw [List.countP_cons_of_neg (by simp [Worker.Exited])] at hpos'
      omega
    · show (s.executed ++ i :: rest.filterMap Worker.job).Perm (s.taken ++ [i])
      refine List.perm_middle.trans ?_
      exact (List.Perm.cons i hwork).trans (List.perm_append_singleton i _).symm
    · show w.pills = _
      rw [hpills]
      rfl

/-- A worker calls the function of its job. -/
theorem Pool.run {i : ℕ} (h : Pool n s) (ht : s.workers.Perm (w :: rest)) (hjob : w.job = some i) :
    Pool n { s with executed := i :: s.executed, workers := { w with pc := .idle } :: rest } := by
  have hnot : ¬ w.Exited := by
    intro hexited
    unfold Worker.job at hjob
    rw [show w.pc = .exited from hexited] at hjob
    exact absurd hjob.symm (Option.some_ne_none i)
  have hexited := countP_exited ht
  rw [if_neg hnot, Nat.add_zero] at hexited
  have hcount : List.countP (fun w : Worker => decide w.Exited) ({ w with pc := .idle } :: rest) =
      s.workers.countP fun w => w.Exited := by
    rw [List.countP_cons_of_neg (by simp [Worker.Exited]), hexited]
  obtain ⟨js, m, hq⟩ := h.queued
  refine h.worker ht rfl ⟨js, m, hq.q, hq.accepted, ?_, fun hpos => hq.nil ?_⟩ rfl (Nat.le_refl _)
    ⟨rfl, rfl, rfl, rfl, rfl, rfl⟩ ?_ ?_
  · exact hq.pills.trans (congrArg (m + ·) hcount.symm)
  · rw [← hcount]
    exact hpos
  · show (i :: (s.executed ++ rest.filterMap Worker.job)).Perm s.taken
    refine List.Perm.trans ?_ h.work
    refine List.perm_middle.symm.trans (List.Perm.append_left _ ?_)
    rw [← List.filterMap_cons_some hjob]
    exact (ht.filterMap _).symm
  · show w.pills = _
    rw [h.one w ((mem_of_pick ht).2 (.inl rfl)), if_neg hnot]
    rfl

/-- The destructor queues a pill. -/
theorem Pool.pill {f : Fifo JobT} (h : Pool n s) (hn : 0 < n) (hdes : s.destroying = true)
    (hpills : s.pills < n) (hf : s.jobq.enq .pill = some f) :
    Pool n { s with jobq := f, pills := s.pills + 1 } := by
  have hmax := h.max
  obtain ⟨hlen, rfl⟩ := enq_eq_some (by omega) hf
  obtain ⟨js, m, hq⟩ := h.queued
  refine ⟨⟨js, m + 1, ?_, hq.accepted, ?_, hq.nil⟩, h.max, ?_, h.nodup, h.lt, h.work, h.one,
    h.length, hpills, h.quiet, fun _ => hdes⟩
  · show s.jobq.q ++ [.pill] = _
    rw [hq.q, List.append_assoc, List.replicate_succ']
  · have hcount := hq.pills
    show s.pills + 1 = m + 1 + s.workers.countP _
    omega
  · show (s.jobq.q ++ [JobT.pill]).length ≤ 100 * n
    rw [List.length_append, List.length_singleton]
    omega

/-- **One step** keeps the invariant. -/
theorem Pool.step {a : PoolSys.Act} (h : Pool n s) (hn : 0 < n)
    (hs : s.step n blocking a = some s') : Pool n s' := by
  rcases a with _ | k | k | k | _ | _
  · unfold PoolSys.step at hs
    rw [Option.ite_none_left_eq_some] at hs
    obtain ⟨hlive, hs⟩ := hs
    obtain rfl := Option.some.inj hs
    obtain ⟨js, m, hq⟩ := h.queued
    refine ⟨⟨js, m, hq.q, hq.accepted, hq.pills, hq.nil⟩, h.max, h.bounded, ?_, fun i hi => ?_,
      h.work, h.one, h.length, h.pills_le, fun hdes => absurd hdes hlive, h.begun⟩
    · exact List.nodup_cons.2 ⟨fun hmem => Nat.lt_irrefl _ (h.lt s.added hmem), h.nodup⟩
    · obtain rfl | hi := List.mem_cons.1 hi
      · exact Nat.lt_succ_self _
      · exact Nat.lt_succ_of_lt (h.lt i hi)
  · obtain ⟨i, hk, hs⟩ := Option.bind_eq_some_iff.1 hs
    exact h.addJob hn (perm_eraseIdx hk) hs
  · obtain ⟨w, hk, hs⟩ := Option.bind_eq_some_iff.1 hs
    rw [Option.ite_none_right_eq_some] at hs
    exact h.takeJob (perm_eraseIdx hk) hs.1 hs.2
  · obtain ⟨w, hk, hs⟩ := Option.bind_eq_some_iff.1 hs
    obtain ⟨i, hjob, rfl⟩ := Option.map_eq_some_iff.1 hs
    exact h.run (perm_eraseIdx hk) hjob
  · unfold PoolSys.step at hs
    rw [Option.ite_none_left_eq_some] at hs
    obtain ⟨hguard, hs⟩ := hs
    obtain rfl := Option.some.inj hs
    obtain ⟨js, m, hq⟩ := h.queued
    -- the destructor starts, and finds no `addJob` that has not returned
    refine ⟨⟨js, m, hq.q, hq.accepted, hq.pills, hq.nil⟩, h.max, h.bounded, h.nodup, h.lt, h.work,
      h.one, h.length, h.pills_le, fun _ => ?_, fun _ => rfl⟩
    by_contra hne
    exact hguard (.inr hne)
  · unfold PoolSys.step at hs
    rw [Option.ite_none_left_eq_some] at hs
    obtain ⟨hguard, hs⟩ := hs
    obtain ⟨f, hf, rfl⟩ := Option.map_eq_some_iff.1 hs
    refine h.pill hn (Bool.eq_true_of_not_eq_false fun hdes => hguard (.inl hdes)) ?_ hf
    by_contra hle
    exact hguard (.inr (by omega))

/-- What was executed was taken, so accepted. -/
theorem Pool.executed_sublist (h : Pool n s) :
    s.executed.Nodup ∧ ∀ i ∈ s.executed, i ∈ s.accepted := by
  obtain ⟨js, m, hq⟩ := h.queued
  have hnodup : s.taken.Nodup := by
    have haccepted := (List.nodup_append.1 (List.nodup_append.1 h.nodup).2.1).2.1
    rw [hq.accepted] at haccepted
    exact (List.nodup_append.1 haccepted).1
  refine ⟨(List.nodup_append.1 (h.work.nodup_iff.2 hnodup)).1, fun i hi => ?_⟩
  rw [hq.accepted]
  exact List.mem_append_left _ (h.work.subset (List.mem_append_left _ hi))

/-- All workers have exited: the `n` pills are used up, so the queue is
empty, and nobody has a job. -/
theorem Pool.drained (h : Pool n s) (hn : 0 < n) (hexited : ∀ w ∈ s.workers, w.Exited) :
    s.jobq.q = [] ∧ s.executed.Perm s.accepted := by
  have hcount : (s.workers.countP fun w => w.Exited) = n := by
    rw [← h.length, List.countP_eq_length]
    exact fun w hw => decide_eq_true (hexited w hw)
  obtain ⟨js, m, hq⟩ := h.queued
  have hjs : js = [] := hq.nil (by omega)
  have hm : m = 0 := by
    have hpills := hq.pills
    have hle := h.pills_le
    omega
  have hidle : s.workers.filterMap Worker.job = [] := by
    rw [List.filterMap_eq_nil_iff]
    intro w hw
    unfold Worker.job
    rw [show w.pc = .exited from hexited w hw]
  constructor
  · rw [hq.q, hjs, hm]
    rfl
  · have hwork := h.work
    rw [hidle, List.append_nil] at hwork
    rw [hq.accepted, hjs, List.append_nil]
    exact hwork

theorem Pool.drains (h : Pool n s) (hn : 0 < n) : Drains n s where
  once := h.executed_sublist.1
  inOrder := by
    obtain ⟨js, m, hq⟩ := h.queued
    exact ⟨js, hq.accepted.symm⟩
  refused i hi hexecuted := by
    have hdisjoint := (List.nodup_append.1 (List.nodup_append.1 h.nodup).2.1).2.2
    exact hdisjoint i hi i (h.executed_sublist.2 i hexecuted) rfl
  bounded := h.bounded
  drained hexited := by
    obtain ⟨hempty, hall⟩ := h.drained hn hexited
    refine ⟨fun i hi => ?_, hempty, fun w hw => ?_⟩
    · exact List.count_eq_one_of_mem h.executed_sublist.1 (hall.symm.subset hi)
    · rw [h.one w hw, if_pos (hexited w hw)]

end

/-- **The pool drains before it stops.** For a pool of any number of
workers from one on, blocking or not, in every run with any number of `addJob` calls
that have returned when the destructor starts: no job is executed twice,
jobs are taken in the order in which they were accepted, none that was
refused is executed, and the queue keeps to its limit. In every state in
which all workers have exited, every job that was accepted has been
executed once, the queue is empty, and each worker took one pill. -/
theorem along_drains {n : ℕ} (hn : 0 < n) (hint : 100 * n < 2 ^ 31) (blocking : Bool)
    (acts : List PoolSys.Act) : Along (PoolSys.step n blocking) (Drains n) (.init n) acts :=
  along_invariant (fun _ _ _ h hs => h.step hn hs) (fun _ h => h.drains hn) (pool_init (by omega))

/-- Two workers; three jobs are accepted and executed before the pills are
taken. -/
def twoWorkers : List PoolSys.Act :=
  [.add, .enq 0, .add, .add, .enq 0, .take 0, .enq 0, .take 1, .destroy, .pill, .run 0, .take 0,
    .pill, .run 0, .run 1, .take 0, .take 1]

theorem drains_twoWorkers :
    (exec (PoolSys.step 2 false) (.init 2) twoWorkers).map (fun s => (s.workers, s.executed)) =
        some ([⟨.exited, 1⟩, ⟨.exited, 1⟩], [0, 1, 2]) ∧
      Along (PoolSys.step 2 false) (Drains 2) (.init 2) twoWorkers :=
  ⟨by decide, along_drains (by decide) (by decide) false twoWorkers⟩

end Yfs
