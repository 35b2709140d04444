import Yfs.Common.Ranked
import Yfs.Lock.Wakeup
import Yfs.Rpc.ThrPool

/-!
# The lock server behind its pool of threads

The handlers of the lock server run on the threads of `dispatchpool_`. An
`acquire` of a lock that is taken keeps its thread while it waits, and the
`release` it waits for needs a thread as well; `lock_tester` says that it
cannot have more clients than there are threads. `pool_served_iff` says why
that is enough and needed. With no more clients than threads, each with one
call at a time and taking its locks in the order of their ids, the server
answers every call in a bounded number of steps, up to those that wait for
a client who holds a lock and makes no call. With one client more, the
threads can all wait for a lock whose `release` is in the queue behind
them. The locks have their entries from the start, as in `Lock.Wakeup`;
what goes wrong while they are made is in `Lock.Server`.
-/

namespace Yfs

open Common

/-! ## The system -/

/-- A request to the lock server. -/
inductive LockReq where
  | acquire
  | release
deriving DecidableEq

/-- A job of the pool. -/
structure LockCall where
  clt : Int32
  lid : UInt64
  req : LockReq
deriving DecidableEq

/-- The lock server and the queue in front of it. A job that was taken is a
handler of `server`, on its own thread until it returns. -/
structure LockPool where
  /-- `jobq_`. -/
  jobq : Fifo LockCall
  server : WaitSys

namespace LockPool

/-- A pool of `workers` threads, as `rpcs::rpcs` makes it, with nothing to
do. Every lock is in `locks` already and nobody holds one; in a fresh
`lock_server` there is none, and `acquire` puts them in unguarded. -/
def idle (workers : ℕ) : LockPool :=
  ⟨⟨[], 100 * workers % 2 ^ 32⟩, .idle (fun _ => some .new) []⟩

/-- The clients whose call is not answered: it is in the queue, or a
handler works on it. -/
def calling (s : LockPool) : List Int32 :=
  s.jobq.q.map LockCall.clt ++ s.server.threads.map WaitThread.clt

/-- The client waits for an answer. -/
def busy (s : LockPool) (clt : Int32) : Bool := s.calling.contains clt

/-- The locks that the client holds are below this one. -/
def above (s : LockPool) (clt : Int32) (lid : UInt64) : Bool :=
  s.server.held.all fun h => decide (h.1 = clt → h.2.toNat < lid.toNat)

/-- What a client may ask for: a lock above those it holds, or the release
of one that it holds. -/
def proper (s : LockPool) (c : LockCall) : Bool :=
  match c.req with
  | .acquire => s.above c.clt c.lid
  | .release => s.server.held.contains (c.clt, c.lid)

/-- What can happen. -/
inductive Act where
  /-- A call of a client comes into the queue. One that finds it full
  stays with its connection. -/
  | call (c : LockCall)
  /-- A thread of the pool takes the next call. -/
  | take
  /-- A handler takes its next step; where it signals, the `w`-th of the
  others is woken. -/
  | run (k w : ℕ)
  /-- A wait returns for no reason. -/
  | wake (k : ℕ)

/-- The handler of a call begins. -/
def begin (s : WaitSys) (c : LockCall) : Option WaitSys :=
  match c.req with
  | .acquire => s.step (.acquire c.clt c.lid)
  | .release => s.step (.release c.clt c.lid)

/-- One step of a pool of `workers` threads with these clients. -/
def step (workers : ℕ) (clients : List Int32) (s : LockPool) : Act → Option LockPool
  | .call c =>
    if clients.contains c.clt = true ∧ s.busy c.clt = false ∧ s.proper c = true then
      (s.jobq.enq c).map fun q => { s with jobq := q }
    else none
  | .take =>
    if s.server.threads.length < workers then
      s.jobq.deq.bind fun r => (begin s.server r.1).map fun t => ⟨r.2, t⟩
    else none
  | .run k w => (s.server.step (.run k w)).map fun t => { s with server := t }
  | .wake k => (s.server.step (.wake k)).map fun t => { s with server := t }

/-- The step serves a call: it is not a new call, or a wait that returns
for no reason. -/
def Act.Serves : Act → Prop
  | .take => True
  | .run _ _ => True
  | _ => False

end LockPool

/-- What the server promises of a state: it comes to an end with the calls
it has, and when it does, they are answered, or somebody holds a lock and
makes no call. -/
structure Served (workers : ℕ) (clients : List Int32) (s : LockPool) : Prop where
  ends : ∀ as t, (∀ a ∈ as, a.Serves) → exec (LockPool.step workers clients) s as = some t →
    as.length ≤ 6 * clients.length
  answered : (∀ a : LockPool.Act, a.Serves → s.step workers clients a = none) →
    (∀ c, s.busy c = false) ∨ ∃ c lid, (c, lid) ∈ s.server.held ∧ s.busy c = false

/-! ## What a handler can do -/

section

variable {s s' : WaitSys} {t : WaitThread} {rest : List WaitThread} {w : ℕ}

/-- The next step of a handler: it goes on, returns with the lock, or has
released it. -/
inductive HandlerRan (s : WaitSys) (t : WaitThread) (rest : List WaitThread) (s' : WaitSys) :
    Prop where
  | moved (pc : WaitPc) (hacq : t.pc ≠ .release) (hpc : pc ≠ .release)
      (hthreads : s'.threads = { t with pc := pc } :: rest) (hheld : s'.held = s.held)
  | granted (hacq : t.pc ≠ .release) (hthreads : s'.threads = rest)
      (hheld : s'.held = (t.clt, t.lid) :: s.held)
  | released (hrel : t.pc = .release) (hsig : WaitSys.signal rest t.lid w = some s'.threads)
      (hheld : s'.held = s.held)

theorem handlerRan_tryLock (hacq : t.pc ≠ .release) :
    HandlerRan (w := w) s t rest (s.tryLock t rest) := by
  unfold WaitSys.tryLock
  split
  · exact .moved .waiting hacq WaitPc.noConfusion rfl rfl
  · exact .granted hacq rfl rfl

theorem handlerRan_of_run (h : s.run t rest w = some s') : HandlerRan (w := w) s t rest s' := by
  unfold WaitSys.run at h
  split at h
  · rename_i hpc
    obtain rfl := Option.some.inj h
    refine .moved _ (by rw [hpc]; exact WaitPc.noConfusion) ?_ rfl rfl
    split
    · exact WaitPc.noConfusion
    · exact WaitPc.noConfusion
  · rename_i hpc
    obtain rfl := Option.some.inj h
    exact .moved .enter (by rw [hpc]; exact WaitPc.noConfusion) WaitPc.noConfusion rfl rfl
  · rename_i hpc
    obtain rfl := Option.some.inj h
    exact handlerRan_tryLock (by rw [hpc]; exact WaitPc.noConfusion)
  · exact absurd h.symm (Option.some_ne_none s')
  · rename_i hpc
    obtain rfl := Option.some.inj h
    exact handlerRan_tryLock (by rw [hpc]; exact WaitPc.noConfusion)
  · rename_i hpc
    obtain rfl := Option.some.inj h
    exact handlerRan_tryLock (by rw [hpc]; exact WaitPc.noConfusion)
  · rename_i hpc
    obtain ⟨threads, hsig, rfl⟩ := Option.map_eq_some_iff.1 h
    exact .released hpc hsig rfl

/-- Who was signalled is still who it was. -/
theorem signal_perm {lid : UInt64} {threads : List WaitThread}
    (h : WaitSys.signal rest lid w = some threads) :
    threads.Perm rest ∨ ∃ u others, u.Waits lid ∧ rest.Perm (u :: others) ∧
      threads.Perm ({ u with pc := .signalled } :: others) := by
  obtain ⟨-, rfl⟩ | ⟨u, hu, hwaits, rfl⟩ := signal_cases h
  · exact .inl (List.Perm.refl _)
  · obtain ⟨hlt, -⟩ := List.getElem?_eq_some_iff.1 hu
    exact .inr ⟨u, rest.eraseIdx w, hwaits, perm_eraseIdx hu, List.set_perm_cons_eraseIdx hlt _⟩

theorem signal_clts {lid : UInt64} {threads : List WaitThread}
    (h : WaitSys.signal rest lid w = some threads) :
    (threads.map WaitThread.clt).Perm (rest.map WaitThread.clt) := by
  rcases signal_perm h with hperm | ⟨u, others, -, hrest, hthreads⟩
  · exact hperm.map _
  · exact (hthreads.map WaitThread.clt).trans (hrest.map WaitThread.clt).symm

/-- `signal` has somebody to wake where somebody waits. -/
theorem exists_signal (rest : List WaitThread) (lid : UInt64) :
    ∃ w threads, WaitSys.signal rest lid w = some threads := by
  by_cases h : ∃ t ∈ rest, t.Waits lid
  · obtain ⟨t, ht, hwaits⟩ := h
    obtain ⟨w, hw⟩ := List.mem_iff_getElem?.1 ht
    refine ⟨w, rest.set w { t with pc := .signalled }, ?_⟩
    unfold WaitSys.signal
    rw [if_pos ⟨t, ht, hwaits⟩, hw, Option.bind_some, if_pos hwaits]
  · exact ⟨0, rest, by unfold WaitSys.signal; rw [if_neg h]⟩

end

/-! ## The server comes to an end -/

/-- How many steps of serving a handler can still take, at most. One that
waits can be signalled, and then waits again or returns. -/
def WaitPc.weight : WaitPc → ℕ
  | .count => 5
  | .assign => 4
  | .enter => 3
  | .waiting => 1
  | .signalled => 2
  | .woken => 2
  | .release => 3

theorem WaitPc.weight_le (pc : WaitPc) : pc.weight ≤ 5 := by
  cases pc <;> decide

/-- The same of all of them. -/
def weights (threads : List WaitThread) : ℕ := total (fun t => t.pc.weight) threads

theorem weights_cons (t : WaitThread) (threads : List WaitThread) :
    weights (t :: threads) = t.pc.weight + weights threads := rfl

theorem weights_perm {threads threads' : List WaitThread} (h : threads.Perm threads') :
    weights threads = weights threads' := total_perm _ h

theorem weights_le (threads : List WaitThread) : weights threads ≤ 5 * threads.length :=
  total_le _ (fun t => t.pc.weight_le) threads

/-- What is left to do with the calls there are. -/
def LockPool.weight (s : LockPool) : ℕ := 6 * s.jobq.q.length + weights s.server.threads

section

variable {s s' : WaitSys} {t : WaitThread} {rest : List WaitThread} {w : ℕ}

theorem weights_tryLock (hpc : 2 ≤ t.pc.weight) :
    weights (s.tryLock t rest).threads < weights (t :: rest) := by
  unfold WaitSys.tryLock
  split
  · show weights ({ t with pc := .waiting } :: rest) < _
    rw [weights_cons, weights_cons]
    show WaitPc.waiting.weight + _ < _
    have hwaiting : WaitPc.waiting.weight = 1 := rfl
    omega
  · show weights rest < _
    rw [weights_cons]
    omega

theorem weights_signal {lid : UInt64} {threads : List WaitThread}
    (h : WaitSys.signal rest lid w = some threads) : weights threads ≤ weights rest + 1 := by
  rcases signal_perm h with hperm | ⟨u, others, hwaits, hrest, hthreads⟩
  · rw [weights_perm hperm]
    exact Nat.le_succ _
  · rw [weights_perm hthreads, weights_perm hrest, weights_cons, weights_cons, hwaits.2]
    show 2 + weights others ≤ 1 + weights others + 1
    omega

theorem weights_run (h : s.run t rest w = some s') : weights s'.threads < weights (t :: rest) := by
  unfold WaitSys.run at h
  split at h
  · rename_i hpc
    obtain rfl := Option.some.inj h
    rw [weights_cons, weights_cons, hpc]
    show WaitPc.weight (if _ then _ else _) + _ < 5 + _
    split
    · show 4 + _ < 5 + _
      omega
    · show 3 + _ < 5 + _
      omega
  · rename_i hpc
    obtain rfl := Option.some.inj h
    rw [weights_cons, weights_cons, hpc]
    show 3 + _ < 4 + _
    omega
  · rename_i hpc
    obtain rfl := Option.some.inj h
    exact weights_tryLock (by rw [hpc]; decide)
  · exact absurd h.symm (Option.some_ne_none s')
  · rename_i hpc
    obtain rfl := Option.some.inj h
    exact weights_tryLock (by rw [hpc]; decide)
  · rename_i hpc
    obtain rfl := Option.some.inj h
    exact weights_tryLock (by rw [hpc]; decide)
  · rename_i hpc
    obtain ⟨threads, hsig, rfl⟩ := Option.map_eq_some_iff.1 h
    have hle := weights_signal hsig
    rw [weights_cons, hpc]
    show weights threads < 3 + _
    omega

end

/-- **A step that serves a call** leaves less to do. -/
theorem weight_lt_of_serves {workers : ℕ} {clients : List Int32} {s s' : LockPool}
    {a : LockPool.Act} (hserves : a.Serves) (h : s.step workers clients a = some s') :
    s'.weight < s.weight := by
  cases a with
  | call c => exact absurd hserves id
  | wake k => exact absurd hserves id
  | take =>
    rw [LockPool.step, Option.ite_none_right_eq_some] at h
    obtain ⟨r, hdeq, h⟩ := Option.bind_eq_some_iff.1 h.2
    obtain ⟨t, ht, rfl⟩ := Option.map_eq_some_iff.1 h
    obtain ⟨q, hq, hr⟩ := deq_eq_some hdeq
    have hbegin : weights t.threads ≤ weights s.server.threads + 5 := by
      have happend : ∀ u : WaitThread, weights (s.server.threads ++ [u]) ≤
          weights s.server.threads + 5 := by
        intro u
        have hu := u.pc.weight_le
        rw [weights_perm (List.perm_append_singleton u _), weights_cons]
        omega
      unfold LockPool.begin at ht
      split at ht
      · obtain rfl := Option.some.inj ht
        exact happend _
      · obtain rfl := Option.some.inj ht
        exact happend _
    unfold LockPool.weight
    rw [hr, hq, List.length_cons]
    show 6 * q.length + weights t.threads < _
    omega
  | run k w =>
    obtain ⟨t, ht, rfl⟩ := Option.map_eq_some_iff.1 h
    obtain ⟨u, hu, hrun⟩ := Option.bind_eq_some_iff.1 ht
    have hlt := weights_run hrun
    rw [← weights_perm (perm_eraseIdx hu)] at hlt
    unfold LockPool.weight
    show 6 * s.jobq.q.length + weights t.threads < _
    omega

/-! ## Who holds a lock -/

/-- A lock that is locked is held, or about to be released. -/
def Owned (s : WaitSys) : Prop :=
  ∀ lid, (s.lockAt lid).isLocked = true →
    (∃ c, (c, lid) ∈ s.held) ∨ ∃ t ∈ s.threads, t.lid = lid ∧ t.pc = .release

section

variable {s s' : WaitSys} {t : WaitThread} {rest : List WaitThread} {w : ℕ}

theorem WaitSys.lockAt_update (lid lid' : UInt64) (l : LockT) (threads : List WaitThread)
    (held : List (Int32 × UInt64)) :
    WaitSys.lockAt ⟨Function.update s.locks lid (some l), threads, held⟩ lid' =
      if lid' = lid then l else s.lockAt lid' := by
  unfold WaitSys.lockAt
  dsimp only
  by_cases h : lid' = lid
  · rw [if_pos h, h, Function.update_self, Option.getD_some]
  · rw [if_neg h, Function.update_of_ne h]

/-- A handler that does not release leaves the other handlers that do. -/
theorem Owned.of_threads (h : Owned s) (hlock : ∀ lid, (s'.lockAt lid).isLocked = true →
      (s.lockAt lid).isLocked = true ∨ ∃ c, (c, lid) ∈ s'.held)
    (hheld : ∀ e ∈ s.held, e ∈ s'.held)
    (hrel : ∀ u ∈ s.threads, u.pc = .release → u ∈ s'.threads) : Owned s' := by
  intro lid hlocked
  rcases hlock lid hlocked with hlocked | hnew
  · rcases h lid hlocked with ⟨c, hc⟩ | ⟨u, hu, hlid, hpc⟩
    · exact .inl ⟨c, hheld _ hc⟩
    · exact .inr ⟨u, hrel u hu hpc, hlid, hpc⟩
  · exact .inl hnew

theorem Owned.tryLock (h : Owned s) (ht : s.threads.Perm (t :: rest)) (hacq : t.pc ≠ .release) :
    Owned (s.tryLock t rest) := by
  have hrest : ∀ u ∈ s.threads, u.pc = .release → u ∈ rest := by
    intro u hu hpc
    refine ((mem_of_pick ht).1 hu).resolve_left ?_
    rintro rfl
    exact hacq hpc
  unfold WaitSys.tryLock
  split
  · refine h.of_threads (fun lid hlocked => .inl ?_) (fun _ he => he)
      fun u hu hpc => List.mem_cons_of_mem _ (hrest u hu hpc)
    unfold WaitSys.setLock at hlocked
    rw [WaitSys.lockAt_update] at hlocked
    split at hlocked
    · rename_i hlid
      rw [hlid]
      exact hlocked
    · exact hlocked
  · refine h.of_threads (fun lid hlocked => ?_) (fun _ he => List.mem_cons_of_mem _ he) hrest
    unfold WaitSys.setLock at hlocked
    rw [WaitSys.lockAt_update] at hlocked
    by_cases hlid : lid = t.lid
    · exact .inr ⟨t.clt, by rw [hlid]; exact List.mem_cons_self⟩
    · rw [if_neg hlid] at hlocked
      exact .inl hlocked

theorem Owned.run (h : Owned s) (ht : s.threads.Perm (t :: rest)) (hassign : t.pc ≠ .assign)
    (hrun : s.run t rest w = some s') : Owned s' := by
  unfold WaitSys.run at hrun
  split at hrun
  · rename_i hpc
    obtain rfl := Option.some.inj hrun
    refine h.of_threads (fun _ hlocked => .inl hlocked) (fun _ he => he) fun u hu hu' => ?_
    refine List.mem_cons_of_mem _ (((mem_of_pick ht).1 hu).resolve_left ?_)
    rintro rfl
    rw [hpc] at hu'
    exact WaitPc.noConfusion hu'
  · rename_i hpc
    exact absurd hpc hassign
  · rename_i hpc
    obtain rfl := Option.some.inj hrun
    exact h.tryLock ht (by rw [hpc]; exact WaitPc.noConfusion)
  · exact absurd hrun.symm (Option.some_ne_none s')
  · rename_i hpc
    obtain rfl := Option.some.inj hrun
    exact h.tryLock ht (by rw [hpc]; exact WaitPc.noConfusion)
  · rename_i hpc
    obtain rfl := Option.some.inj hrun
    exact h.tryLock ht (by rw [hpc]; exact WaitPc.noConfusion)
  · -- the lock is free now, and those that release others are still there
    rename_i hpc
    obtain ⟨threads, hsig, rfl⟩ := Option.map_eq_some_iff.1 hrun
    intro lid hlocked
    unfold WaitSys.setLock at hlocked
    rw [WaitSys.lockAt_update] at hlocked
    by_cases hlid : lid = t.lid
    · rw [if_pos hlid] at hlocked
      exact absurd hlocked Bool.false_ne_true
    rw [if_neg hlid] at hlocked
    rcases h lid hlocked with ⟨c, hc⟩ | ⟨u, hu, hulid, hupc⟩
    · exact .inl ⟨c, hc⟩
    · have hrest : u ∈ rest := by
        refine ((mem_of_pick ht).1 hu).resolve_left ?_
        rintro rfl
        exact hlid hulid.symm
      refine .inr ⟨u, ?_, hulid, hupc⟩
      rcases signal_perm hsig with hperm | ⟨v, others, hwaits, hperm, hthreads⟩
      · exact hperm.mem_iff.2 hrest
      · refine hthreads.mem_iff.2 (List.mem_cons_of_mem _ ?_)
        refine (List.mem_cons.1 (hperm.mem_iff.1 hrest)).resolve_left ?_
        rintro rfl
        rw [hwaits.2] at hupc
        exact WaitPc.noConfusion hupc

end

/-! ## The invariant -/

/-- The locks that the client holds are below this one. -/
def Above (held : List (Int32 × UInt64)) (clt : Int32) (lid : UInt64) : Prop :=
  ∀ l, (clt, l) ∈ held → l.toNat < lid.toNat

/-- The invariant: no wakeup is lost and no lock is locked without reason;
each client has one call at most, and asks for a lock above those that it
holds. -/
structure Attended (clients : List Int32) (s : LockPool) : Prop where
  wakeful : ∀ lid, Wakeful lid s.server
  owned : Owned s.server
  nodup : s.calling.Nodup
  known : ∀ c ∈ s.calling, c ∈ clients
  queued : ∀ j ∈ s.jobq.q, j.req = .acquire → Above s.server.held j.clt j.lid
  running : ∀ t ∈ s.server.threads, t.pc ≠ .release → Above s.server.held t.clt t.lid

section

variable {workers : ℕ} {clients : List Int32} {s s' : LockPool}

theorem above_iff (c : Int32) (lid : UInt64) :
    s.above c lid = true ↔ Above s.server.held c lid := by
  unfold LockPool.above Above
  rw [List.all_eq_true]
  constructor
  · intro h l hl
    exact of_decide_eq_true (h (c, l) hl) rfl
  · rintro h ⟨c', l⟩ hl
    refine decide_eq_true fun heq => h l ?_
    dsimp only at heq
    rw [← heq]
    exact hl

theorem busy_iff (c : Int32) : s.busy c = true ↔ c ∈ s.calling := List.contains_iff_mem

theorem attended_idle : Attended clients (.idle workers) where
  wakeful lid := by
    refine ⟨rfl, fun t ht => absurd ht List.not_mem_nil, fun _ hsome => ?_⟩
    obtain ⟨t, ht, -⟩ := hsome
    exact absurd ht List.not_mem_nil
  owned lid hlocked := absurd hlocked Bool.false_ne_true
  nodup := List.nodup_nil
  known c hc := absurd hc List.not_mem_nil
  queued j hj := absurd hj List.not_mem_nil
  running t ht := absurd ht List.not_mem_nil

/-- A call comes into the queue. -/
theorem Attended.call {c : LockCall} {q : Fifo LockCall} (h : Attended clients s)
    (hclt : c.clt ∈ clients) (hbusy : c.clt ∉ s.calling) (hproper : s.proper c = true)
    (hq : q.q = s.jobq.q ++ [c]) : Attended clients { s with jobq := q } := by
  have hperm : (LockPool.calling { s with jobq := q }).Perm (c.clt :: s.calling) := by
    unfold LockPool.calling
    rw [hq, List.map_append, List.append_assoc]
    exact List.perm_middle
  refine ⟨h.wakeful, h.owned, ?_, fun d hd => ?_, fun j hj hreq => ?_, h.running⟩
  · exact hperm.nodup_iff.2 (List.nodup_cons.2 ⟨hbusy, h.nodup⟩)
  · rcases List.mem_cons.1 (hperm.mem_iff.1 hd) with rfl | hd
    · exact hclt
    · exact h.known d hd
  · rw [hq, List.mem_append, List.mem_singleton] at hj
    rcases hj with hj | rfl
    · exact h.queued j hj hreq
    · unfold LockPool.proper at hproper
      rw [hreq] at hproper
      exact (above_iff _ _).1 hproper

/-- The handler of a call begins: the server with its calls, the next one
taken from the queue. -/
theorem Attended.begin {j : LockCall} {q : List LockCall} {f : Fifo LockCall} {t : WaitSys}
    (h : Attended clients s) (hq : s.jobq.q = j :: q) (hf : f.q = q)
    (ht : LockPool.begin s.server j = some t) : Attended clients ⟨f, t⟩ := by
  have hthreads : ∃ pc, t.threads = s.server.threads ++ [⟨j.clt, j.lid, pc⟩] ∧
      (pc ≠ .release → j.req = .acquire) := by
    unfold LockPool.begin at ht
    split at ht
    · rename_i hreq
      obtain rfl := Option.some.inj ht
      exact ⟨.count, rfl, fun _ => hreq⟩
    · obtain rfl := Option.some.inj ht
      exact ⟨.release, rfl, fun hne => absurd rfl hne⟩
  have hheld : ∀ e ∈ t.held, e ∈ s.server.held := by
    unfold LockPool.begin at ht
    split at ht
    · obtain rfl := Option.some.inj ht
      exact fun e he => he
    · obtain rfl := Option.some.inj ht
      exact fun e he => List.mem_of_mem_erase he
  have hmono : ∀ c lid, Above s.server.held c lid → Above t.held c lid :=
    fun c lid habove l hl => habove l (hheld _ hl)
  obtain ⟨pc, hthreads, hacq⟩ := hthreads
  have hperm : (LockPool.calling ⟨f, t⟩).Perm s.calling := by
    unfold LockPool.calling
    rw [hthreads, hf, hq, List.map_append, List.map_cons, ← List.append_assoc]
    exact List.perm_append_singleton _ _
  refine ⟨fun lid => ?_, ?_, hperm.nodup_iff.2 h.nodup,
    fun c hc => h.known c (hperm.mem_iff.1 hc), fun i hi hreq => ?_, fun u hu hpc => ?_⟩
  · unfold LockPool.begin at ht
    split at ht
    · exact (h.wakeful lid).step ht
    · exact (h.wakeful lid).step ht
  · unfold LockPool.begin at ht
    split at ht
    · obtain rfl := Option.some.inj ht
      exact h.owned.of_threads (fun _ hlocked => .inl hlocked) (fun _ he => he)
        fun u hu _ => List.mem_append_left _ hu
    · -- the lock is released by the handler from now on
      obtain rfl := Option.some.inj ht
      intro lid hlocked
      rcases h.owned lid hlocked with ⟨c, hc⟩ | ⟨u, hu, hulid, hupc⟩
      · by_cases hsame : (c, lid) = (j.clt, j.lid)
        · refine .inr ⟨_, List.mem_append_right _ (List.mem_singleton.2 rfl), ?_, rfl⟩
          exact (congrArg Prod.snd hsame).symm
        · exact .inl ⟨c, (List.mem_erase_of_ne hsame).2 hc⟩
      · exact .inr ⟨u, List.mem_append_left _ hu, hulid, hupc⟩
  · rw [hf] at hi
    exact hmono _ _ (h.queued i (by rw [hq]; exact List.mem_cons_of_mem _ hi) hreq)
  · rw [hthreads, List.mem_append, List.mem_singleton] at hu
    rcases hu with hu | rfl
    · exact hmono _ _ (h.running u hu hpc)
    · exact hmono _ _ (h.queued j (by rw [hq]; exact List.mem_cons_self) (hacq hpc))

/-- **A step of a handler.** -/
theorem Attended.run {t : WaitThread} {rest : List WaitThread} {w k : ℕ} {s' : WaitSys}
    (h : Attended clients s) (hk : s.server.threads[k]? = some t)
    (hrest : rest = s.server.threads.eraseIdx k) (hrun : s.server.run t rest w = some s') :
    Attended clients { s with server := s' } := by
  subst hrest
  have ht := perm_eraseIdx hk
  have hmem : ∀ u ∈ s.server.threads.eraseIdx k, u ∈ s.server.threads :=
    fun u hu => (mem_of_pick ht).2 (.inr hu)
  have hstep : s.server.step (.run k w) = some s' := by
    rw [WaitSys.step, hk, Option.bind_some]
    exact hrun
  have hwakeful : ∀ lid, Wakeful lid s' := fun lid => (h.wakeful lid).step hstep
  have howned : Owned s' :=
    h.owned.run ht ((h.wakeful t.lid).not_assign t ((mem_of_pick ht).2 (.inl rfl)) rfl) hrun
  have hcalling : s.calling.Perm (t.clt ::
      (s.jobq.q.map LockCall.clt ++ (s.server.threads.eraseIdx k).map WaitThread.clt)) := by
    unfold LockPool.calling
    exact ((ht.map WaitThread.clt).append_left _).trans List.perm_middle
  have hnodup := hcalling.nodup_iff.1 h.nodup
  cases handlerRan_of_run hrun with
  | moved pc hacq hpc hthreads hheld =>
    have hsame : (LockPool.calling { s with server := s' }).Perm s.calling := by
      refine List.Perm.trans ?_ hcalling.symm
      unfold LockPool.calling
      rw [hthreads, List.map_cons]
      exact List.perm_middle
    refine ⟨hwakeful, howned, hsame.nodup_iff.2 h.nodup,
      fun c hc => h.known c (hsame.mem_iff.1 hc), ?_, fun u hu hupc => ?_⟩
    · show ∀ j ∈ s.jobq.q, j.req = .acquire → Above s'.held j.clt j.lid
      rw [hheld]
      exact h.queued
    · change u ∈ s'.threads at hu
      show Above s'.held u.clt u.lid
      rw [hthreads] at hu
      rw [hheld]
      rcases List.mem_cons.1 hu with rfl | hu
      · exact h.running t ((mem_of_pick ht).2 (.inl rfl)) hacq
      · exact h.running u (hmem u hu) hupc
  | granted hacq hthreads hheld =>
    have hsame : (LockPool.calling { s with server := s' }) =
        s.jobq.q.map LockCall.clt ++ (s.server.threads.eraseIdx k).map WaitThread.clt := by
      unfold LockPool.calling
      rw [hthreads]
    have hother : ∀ c lid, c ∈ LockPool.calling { s with server := s' } →
        Above s.server.held c lid → Above s'.held c lid := by
      intro c lid hc habove l hl
      rw [hheld] at hl
      rcases List.mem_cons.1 hl with heq | hl
      · -- the client of this handler makes no other call
        rw [hsame, show c = t.clt from congrArg Prod.fst heq] at hc
        exact absurd hc (List.nodup_cons.1 hnodup).1
      · exact habove l hl
    refine ⟨hwakeful, howned, ?_, fun c hc => ?_, fun j hj hreq => ?_, fun u hu hupc => ?_⟩
    · rw [hsame]
      exact (List.nodup_cons.1 hnodup).2
    · rw [hsame] at hc
      exact h.known c (hcalling.mem_iff.2 (List.mem_cons_of_mem _ hc))
    · refine hother _ _ ?_ (h.queued j hj hreq)
      exact List.mem_append_left _ (List.mem_map_of_mem hj)
    · change u ∈ s'.threads at hu
      refine hother _ _ (List.mem_append_right _ (List.mem_map_of_mem hu)) ?_
      rw [hthreads] at hu
      exact h.running u (hmem u hu) hupc
  | released hrel hsig hheld =>
    have hsame : (LockPool.calling { s with server := s' }).Perm
        (s.jobq.q.map LockCall.clt ++ (s.server.threads.eraseIdx k).map WaitThread.clt) :=
      (signal_clts hsig).append_left _
    refine ⟨hwakeful, howned, hsame.nodup_iff.2 (List.nodup_cons.1 hnodup).2, fun c hc => ?_, ?_,
      fun u hu hupc => ?_⟩
    · exact h.known c (hcalling.mem_iff.2 (List.mem_cons_of_mem _ (hsame.mem_iff.1 hc)))
    · show ∀ j ∈ s.jobq.q, j.req = .acquire → Above s'.held j.clt j.lid
      rw [hheld]
      exact h.queued
    · change u ∈ s'.threads at hu
      show Above s'.held u.clt u.lid
      rw [hheld]
      rcases signal_perm hsig with hperm | ⟨v, others, hwaits, hperm, hthreads⟩
      · exact h.running u (hmem u (hperm.mem_iff.1 hu)) hupc
      · rcases List.mem_cons.1 (hthreads.mem_iff.1 hu) with rfl | hu
        · refine h.running v (hmem v (hperm.mem_iff.2 List.mem_cons_self)) ?_
          rw [hwaits.2]
          exact WaitPc.noConfusion
        · exact h.running u (hmem u (hperm.mem_iff.2 (List.mem_cons_of_mem _ hu))) hupc

/-- A wait that returns for no reason. -/
theorem Attended.wake {t : WaitThread} {k : ℕ} (h : Attended clients s)
    (hk : s.server.threads[k]? = some t) (hpc : t.pc = .waiting) :
    Attended clients
      { s with
        server := { s.server with threads := s.server.threads.set k { t with pc := .woken } } } := by
  obtain ⟨hlt, -⟩ := List.getElem?_eq_some_iff.1 hk
  have ht := perm_eraseIdx hk
  have hset := List.set_perm_cons_eraseIdx hlt { t with pc := .woken }
  have hstep : s.server.step (.wake k) =
      some { s.server with threads := s.server.threads.set k { t with pc := .woken } } := by
    rw [WaitSys.step, hk, Option.bind_some, if_pos hpc]
  have hperm : (LockPool.calling
      { s with
        server := { s.server with threads := s.server.threads.set k { t with pc := .woken } } }).Perm
      s.calling :=
    ((hset.map WaitThread.clt).trans (ht.map WaitThread.clt).symm).append_left _
  refine ⟨fun lid => (h.wakeful lid).step hstep, ?_, hperm.nodup_iff.2 h.nodup,
    fun c hc => h.known c (hperm.mem_iff.1 hc), h.queued, fun u hu hupc => ?_⟩
  · refine h.owned.of_threads (fun _ hlocked => .inl hlocked) (fun _ he => he) fun u hu hu' => ?_
    refine (mem_set_of_ne hk ?_ ?_).2 hu
    · rintro rfl
      rw [hpc] at hu'
      exact WaitPc.noConfusion hu'
    · rintro rfl
      exact WaitPc.noConfusion hu'
  · rcases List.mem_cons.1 (hset.mem_iff.1 hu) with rfl | hu
    · refine h.running t ((mem_of_pick ht).2 (.inl rfl)) ?_
      rw [hpc]
      exact WaitPc.noConfusion
    · exact h.running u ((mem_of_pick ht).2 (.inr hu)) hupc

/-- **One step** keeps the invariant. -/
theorem Attended.step {a : LockPool.Act} (h : Attended clients s)
    (hs : s.step workers clients a = some s') : Attended clients s' := by
  cases a with
  | call c =>
    rw [LockPool.step, Option.ite_none_right_eq_some] at hs
    obtain ⟨⟨hclt, hbusy, hproper⟩, hs⟩ := hs
    obtain ⟨q, henq, rfl⟩ := Option.map_eq_some_iff.1 hs
    unfold Fifo.enq at henq
    rw [Option.ite_none_right_eq_some] at henq
    obtain ⟨-, rfl⟩ := henq.imp_right Option.some.inj
    refine h.call (List.contains_iff_mem.1 hclt) ?_ hproper rfl
    rw [← busy_iff, hbusy]
    exact Bool.false_ne_true
  | take =>
    rw [LockPool.step, Option.ite_none_right_eq_some] at hs
    obtain ⟨r, hdeq, hs⟩ := Option.bind_eq_some_iff.1 hs.2
    obtain ⟨t, ht, rfl⟩ := Option.map_eq_some_iff.1 hs
    obtain ⟨q, hq, hr⟩ := deq_eq_some hdeq
    exact h.begin hq (by rw [hr]) ht
  | run k w =>
    obtain ⟨t, ht, rfl⟩ := Option.map_eq_some_iff.1 hs
    obtain ⟨u, hu, hrun⟩ := Option.bind_eq_some_iff.1 ht
    exact h.run hu rfl hrun
  | wake k =>
    obtain ⟨t, ht, rfl⟩ := Option.map_eq_some_iff.1 hs
    obtain ⟨u, hu, ht⟩ := Option.bind_eq_some_iff.1 ht
    rw [Option.ite_none_right_eq_some] at ht
    obtain ⟨hpc, rfl⟩ := ht.imp_right Option.some.inj
    exact h.wake hu hpc

/-! ## Enough threads -/

theorem Attended.length_le (h : Attended clients s) :
    s.jobq.q.length + s.server.threads.length ≤ clients.length := by
  have hlen := (List.subperm_of_subset h.nodup h.known).length_le
  unfold LockPool.calling at hlen
  rw [List.length_append, List.length_map, List.length_map] at hlen
  exact hlen

theorem Attended.weight_le (h : Attended clients s) : s.weight ≤ 6 * clients.length := by
  have hlen := h.length_le
  have hweights := weights_le s.server.threads
  unfold LockPool.weight
  omega

/-- With a thread for each client a call does not stay in the queue. -/
theorem Attended.queue_nil (h : Attended clients s) (hworkers : clients.length ≤ workers)
    (htake : s.step workers clients .take = none) : s.jobq.q = [] := by
  by_contra hne
  obtain ⟨j, q, hq⟩ := List.exists_cons_of_ne_nil hne
  have hlen := h.length_le
  rw [hq, List.length_cons] at hlen
  have hbegin : ∃ t, LockPool.begin s.server j = some t := by
    unfold LockPool.begin
    split
    · exact ⟨_, rfl⟩
    · exact ⟨_, rfl⟩
  obtain ⟨t, ht⟩ := hbegin
  have hdeq : s.jobq.deq = some (j, { s.jobq with q := q }) := by
    unfold Fifo.deq
    rw [hq]
  rw [LockPool.step, if_pos (by omega), hdeq, Option.bind_some, ht] at htake
  exact Option.some_ne_none _ htake

end

section

variable {s : WaitSys} {t : WaitThread}

/-- A handler that cannot go on waits. -/
theorem waiting_of_stuck (h : ∀ k w, s.step (.run k w) = none) (ht : t ∈ s.threads) :
    t.pc = .waiting := by
  obtain ⟨k, hk⟩ := List.mem_iff_getElem?.1 ht
  obtain ⟨w, threads, hsig⟩ := exists_signal (s.threads.eraseIdx k) t.lid
  have hnone := h k w
  rw [WaitSys.step, hk, Option.bind_some] at hnone
  unfold WaitSys.run at hnone
  split at hnone
  · exact absurd hnone (Option.some_ne_none _)
  · exact absurd hnone (Option.some_ne_none _)
  · exact absurd hnone (Option.some_ne_none _)
  · assumption
  · exact absurd hnone (Option.some_ne_none _)
  · exact absurd hnone (Option.some_ne_none _)
  · rw [hsig, Option.map_some] at hnone
    exact absurd hnone (Option.some_ne_none _)

/-- What it waits for is held by a client: no wakeup is lost, so the lock
is not free, and nobody is about to release it. -/
theorem held_of_stuck (hwakeful : Wakeful t.lid s) (howned : Owned s)
    (h : ∀ k w, s.step (.run k w) = none) (ht : t ∈ s.threads) : ∃ c, (c, t.lid) ∈ s.held := by
  have hlocked : (s.lockAt t.lid).isLocked = true := by
    by_contra hfree
    rw [Bool.not_eq_true] at hfree
    obtain ⟨u, hu, -, hpc⟩ := hwakeful.pending hfree ⟨t, ht, rfl, waiting_of_stuck h ht⟩
    rw [waiting_of_stuck h hu] at hpc
    exact WaitPc.noConfusion hpc
  rcases howned t.lid hlocked with hheld | ⟨u, hu, -, hpc⟩
  · exact hheld
  · rw [waiting_of_stuck h hu] at hpc
    exact WaitPc.noConfusion hpc

end

section

variable {workers : ℕ} {clients : List Int32} {s : LockPool}

/-- **Where no call can be served any further**, they all wait for locks,
and these are held: somebody who holds one of them does not wait. -/
theorem Attended.answered (h : Attended clients s) (hworkers : clients.length ≤ workers)
    (hstuck : ∀ a : LockPool.Act, a.Serves → s.step workers clients a = none) :
    (∀ c, s.busy c = false) ∨ ∃ c lid, (c, lid) ∈ s.server.held ∧ s.busy c = false := by
  have hq := h.queue_nil hworkers (hstuck .take trivial)
  have hrun : ∀ k w, s.server.step (.run k w) = none :=
    fun k w => Option.map_eq_none_iff.1 (hstuck (.run k w) trivial)
  have hbusy : ∀ c, s.busy c = true → c ∈ s.server.threads.map WaitThread.clt := by
    intro c hc
    rw [busy_iff, LockPool.calling, hq] at hc
    exact hc
  by_cases hnil : s.server.threads = []
  · left
    intro c
    by_contra hc
    rw [Bool.not_eq_false] at hc
    have hmem := hbusy c hc
    rw [hnil] at hmem
    exact List.not_mem_nil hmem
  right
  have hne : (s.server.threads.map fun t => (t.clt, t.lid)) ≠ [] :=
    fun hmap => hnil (List.map_eq_nil_iff.1 hmap)
  have howned : ∀ w ∈ s.server.threads.map (fun t => (t.clt, t.lid)),
      ∃ c, (c, w.2) ∈ s.server.held := by
    intro w hw
    obtain ⟨t, ht, rfl⟩ := List.mem_map.1 hw
    exact held_of_stuck (h.wakeful _) h.owned hrun ht
  have hranked : ∀ w ∈ s.server.threads.map (fun t => (t.clt, t.lid)),
      Above s.server.held w.1 w.2 := by
    intro w hw
    obtain ⟨t, ht, rfl⟩ := List.mem_map.1 hw
    refine h.running t ht ?_
    rw [waiting_of_stuck hrun ht]
    exact WaitPc.noConfusion
  obtain ⟨c, lid, hheld, hidle⟩ :=
    exists_idle_holder (fun c lid => (c, lid) ∈ s.server.held) UInt64.toNat hne howned hranked
  refine ⟨c, lid, hheld, ?_⟩
  by_contra hc
  rw [Bool.not_eq_false] at hc
  obtain ⟨t, ht, hclt⟩ := List.mem_map.1 (hbusy c hc)
  exact hidle _ (List.mem_map_of_mem ht) hclt

theorem Attended.served (h : Attended clients s) (hworkers : clients.length ≤ workers) :
    Served workers clients s where
  ends as t hserves hexec := by
    have hle := length_le_of_steps LockPool.weight
      (fun _ _ _ hserves hs => weight_lt_of_serves hserves hs)
      (steps_of_forall fun a ha _ => hserves a ha) hexec
    exact hle.trans h.weight_le
  answered := h.answered hworkers

/-! ## One thread too few -/

/-- The steps of an `acquire` of the lock 1, with `n` handlers before it. -/
def acquireActs (n : ℕ) (c : Int32) : List LockPool.Act :=
  [.call ⟨c, 1, .acquire⟩, .take, .run n 0, .run 0 0]

/-- It comes to the lock. -/
theorem exec_acquire {c : Int32} (hq : s.jobq.q = []) (hlock : (s.server.locks 1).isNone = false)
    (hworkers : s.server.threads.length < workers) (hc : clients.contains c = true)
    (hbusy : s.busy c = false) (habove : s.above c 1 = true) :
    exec (LockPool.step workers clients) s (acquireActs s.server.threads.length c) =
      some { s with server := s.server.tryLock ⟨c, 1, .enter⟩ s.server.threads } := by
  obtain ⟨⟨q, max⟩, locks, threads, held⟩ := s
  obtain rfl : q = [] := hq
  have hcall : LockPool.step workers clients ⟨⟨[], max⟩, locks, threads, held⟩
      (.call ⟨c, 1, .acquire⟩) = some ⟨⟨[⟨c, 1, .acquire⟩], max⟩, locks, threads, held⟩ := by
    have henq : Fifo.enq ⟨[], max⟩ (⟨c, 1, .acquire⟩ : LockCall) =
        some ⟨[⟨c, 1, .acquire⟩], max⟩ := if_pos (Nat.eq_zero_or_pos max)
    rw [LockPool.step, if_pos ⟨hc, hbusy, habove⟩, henq]
    rfl
  have htake : LockPool.step workers clients ⟨⟨[⟨c, 1, .acquire⟩], max⟩, locks, threads, held⟩
      .take = some ⟨⟨[], max⟩, locks, threads ++ [⟨c, 1, .count⟩], held⟩ := by
    rw [LockPool.step, if_pos hworkers]
    rfl
  have hrun : LockPool.step workers clients
      ⟨⟨[], max⟩, locks, threads ++ [⟨c, 1, .count⟩], held⟩ (.run threads.length 0) =
      some ⟨⟨[], max⟩, locks, ⟨c, 1, .enter⟩ :: threads, held⟩ := by
    have hlast : (threads ++ [(⟨c, 1, .count⟩ : WaitThread)])[threads.length]? =
        some ⟨c, 1, .count⟩ := List.getElem?_concat_length
    have hrest : (threads ++ [(⟨c, 1, .count⟩ : WaitThread)]).eraseIdx threads.length =
        threads := by
      rw [List.eraseIdx_append_of_length_le (Nat.le_refl _), Nat.sub_self]
      exact List.append_nil threads
    rw [LockPool.step, WaitSys.step, hlast, Option.bind_some, hrest]
    show some _ = some _
    dsimp only
    rw [hlock]
    rfl
  unfold acquireActs
  rw [exec_cons, hcall, Option.bind_some, exec_cons, htake, Option.bind_some, exec_cons, hrun]
  rfl

/-- The first client holds the lock 1 and the others wait for it. -/
def waitingFor (workers : ℕ) (c : Int32) (ds : List Int32) : LockPool :=
  ⟨⟨[], 100 * workers % 2 ^ 32⟩,
    ⟨Function.update (fun _ => some .new) 1 (some ⟨true⟩), ds.map (⟨·, 1, .waiting⟩), [(c, 1)]⟩⟩

theorem calling_waitingFor (c : Int32) (ds : List Int32) :
    (waitingFor workers c ds).calling = ds := by
  show [] ++ (ds.map fun d => (⟨d, 1, .waiting⟩ : WaitThread)).map WaitThread.clt = ds
  rw [List.nil_append, List.map_map]
  exact List.map_id ds

/-- The others come one after the other, as far as there are threads. -/
theorem exists_waitingFor {c : Int32} {ds : List Int32} (hpos : 0 < workers)
    (hds : ds.length ≤ workers) (hnodup : (c :: ds).Nodup) (hmem : ∀ d ∈ c :: ds, d ∈ clients) :
    ∃ as, exec (LockPool.step workers clients) (.idle workers) as =
      some (waitingFor workers c ds) := by
  induction ds with
  | nil =>
    refine ⟨acquireActs 0 c, ?_⟩
    exact exec_acquire (s := .idle workers) rfl rfl hpos
      (List.contains_iff_mem.2 (hmem c List.mem_cons_self)) rfl rfl
  | cons d ds ih =>
    rw [List.length_cons] at hds
    obtain ⟨hc, hnodup⟩ := List.nodup_cons.1 hnodup
    obtain ⟨hd, hnodup⟩ := List.nodup_cons.1 hnodup
    have hne : c ≠ d := fun heq => hc (heq ▸ List.mem_cons_self)
    obtain ⟨as, has⟩ := ih (by omega)
      (List.nodup_cons.2 ⟨fun hc' => hc (List.mem_cons_of_mem d hc'), hnodup⟩)
      fun e he => hmem e <| (List.mem_cons.1 he).elim (fun heq => heq ▸ List.mem_cons_self)
        fun he => List.mem_cons_of_mem _ (List.mem_cons_of_mem _ he)
    have hlen : (waitingFor workers c ds).server.threads.length = ds.length := List.length_map _
    have hbusy : (waitingFor workers c ds).busy d = false := by
      rw [← Bool.not_eq_true, busy_iff, calling_waitingFor]
      exact hd
    have habove : (waitingFor workers c ds).above d 1 = true := by
      rw [above_iff]
      intro l hl
      exact absurd (congrArg Prod.fst (List.mem_singleton.1 hl)).symm hne
    have hlt : (waitingFor workers c ds).server.threads.length < workers := by omega
    have hacquire := exec_acquire (s := waitingFor workers c ds) rfl rfl hlt
      (List.contains_iff_mem.2 (hmem d (List.mem_cons_of_mem _ List.mem_cons_self))) hbusy habove
    refine ⟨as ++ acquireActs ds.length d, ?_⟩
    rw [exec_append, has, Option.bind_some, ← hlen, hacquire]
    unfold WaitSys.tryLock
    rw [if_pos (show (WaitSys.lockAt (waitingFor workers c ds).server 1).isLocked = true from rfl)]
    unfold WaitSys.setLock waitingFor
    rw [Function.update_idem]
    rfl

/-- Nobody makes progress where all the threads wait. -/
theorem step_waitingFor {c : Int32} {ds : List Int32} {q : Fifo LockCall} {a : LockPool.Act}
    (hds : ds.length = workers) (ha : a.Serves) :
    LockPool.step workers clients { waitingFor workers c ds with jobq := q } a = none := by
  cases a with
  | call c => exact absurd ha id
  | wake k => exact absurd ha id
  | take =>
    have hlen : (waitingFor workers c ds).server.threads.length = ds.length := List.length_map _
    exact if_neg (by rw [hlen]; omega)
  | run k w =>
    rw [LockPool.step, Option.map_eq_none_iff, WaitSys.step, Option.bind_eq_none_iff]
    intro t ht
    obtain ⟨d, -, rfl⟩ := List.mem_map.1 (List.mem_of_getElem? ht)
    rfl

/-- **A client more than there are threads**: it takes a lock, the others
wait for it on all the threads, and its `release` stays in the queue. -/
theorem exists_not_served (hnodup : clients.Nodup) (hlt : workers < clients.length) :
    ∃ as s, exec (LockPool.step workers clients) (.idle workers) as = some s ∧
      ¬ Served workers clients s := by
  obtain ⟨c, rest, rfl⟩ : ∃ c rest, clients = c :: rest :=
    List.exists_cons_of_length_pos (by omega)
  have hc : (c :: rest).contains c = true := List.contains_iff_mem.2 List.mem_cons_self
  rcases Nat.eq_zero_or_pos workers with rfl | hpos
  · -- without threads the first call stays where it is
    refine ⟨[.call ⟨c, 1, .acquire⟩],
      ⟨⟨[⟨c, 1, .acquire⟩], 0⟩, (LockPool.idle 0).server⟩, ?_, fun h => ?_⟩
    · rw [exec_cons, LockPool.step, if_pos ⟨hc, rfl, rfl⟩]
      rfl
    · have hstuck : ∀ a : LockPool.Act, a.Serves → LockPool.step 0 (c :: rest)
          ⟨⟨[⟨c, 1, .acquire⟩], 0⟩, (LockPool.idle 0).server⟩ a = none := by
        intro a ha
        cases a with
        | take => rfl
        | run k w => rfl
        | call c => exact absurd ha id
        | wake k => exact absurd ha id
      rcases h.answered hstuck with hidle | ⟨d, lid, hheld, -⟩
      · have hbusy := hidle c
        rw [← Bool.not_eq_true, busy_iff] at hbusy
        exact hbusy List.mem_cons_self
      · exact List.not_mem_nil hheld
  rw [List.length_cons] at hlt
  have htake : (rest.take workers).length = workers := by
    rw [List.length_take]
    omega
  have hsub : List.Sublist (c :: rest.take workers) (c :: rest) :=
    (List.take_sublist workers rest).cons_cons c
  obtain ⟨as, has⟩ := exists_waitingFor hpos (Nat.le_of_eq htake) (hnodup.sublist hsub)
    fun d hd => hsub.mem hd
  have hidle : (waitingFor workers c (rest.take workers)).busy c = false := by
    rw [← Bool.not_eq_true, busy_iff, calling_waitingFor]
    exact (List.nodup_cons.1 (hnodup.sublist hsub)).1
  have hproper : (waitingFor workers c (rest.take workers)).proper ⟨c, 1, .release⟩ = true :=
    List.contains_iff_mem.2 List.mem_cons_self
  have henq : (waitingFor workers c (rest.take workers)).jobq.enq ⟨c, 1, .release⟩ =
      some ⟨[⟨c, 1, .release⟩], 100 * workers % 2 ^ 32⟩ := if_pos (Nat.eq_zero_or_pos _)
  have hcall : LockPool.step workers (c :: rest) (waitingFor workers c (rest.take workers))
      (.call ⟨c, 1, .release⟩) =
      some { waitingFor workers c (rest.take workers) with
        jobq := ⟨[⟨c, 1, .release⟩], 100 * workers % 2 ^ 32⟩ } := by
    rw [LockPool.step, if_pos ⟨hc, hidle, hproper⟩, henq]
    rfl
  refine ⟨as ++ [.call ⟨c, 1, .release⟩], { waitingFor workers c (rest.take workers) with
    jobq := ⟨[⟨c, 1, .release⟩], 100 * workers % 2 ^ 32⟩ }, ?_, fun h => ?_⟩
  · rw [exec_append, has, Option.bind_some, exec_cons, hcall]
    rfl
  · -- the one that holds the lock has made its call
    have hbusy : LockPool.busy { waitingFor workers c (rest.take workers) with
        jobq := ⟨[⟨c, 1, .release⟩], 100 * workers % 2 ^ 32⟩ } c = true := by
      rw [busy_iff]
      exact List.mem_cons_self
    rcases h.answered fun a ha => step_waitingFor htake ha with hnone | ⟨d, lid, hheld, hnone⟩
    · rw [hnone c] at hbusy
      exact Bool.false_ne_true hbusy
    · rw [show d = c from congrArg Prod.fst (List.mem_singleton.1 hheld), hbusy] at hnone
      exact Bool.false_ne_true hnone.symm

end

/-- **As many clients as threads.** Once the locks have their entries,
clients that make one call at a time and take their locks in the order of
their ids are served, in every state that they and the threads of the pool
can bring about, if and only if there are not more of them than threads. -/
theorem pool_served_iff {workers : ℕ} {clients : List Int32} (hnodup : clients.Nodup) :
    (∀ acts, Along (LockPool.step workers clients) (Served workers clients) (.idle workers) acts) ↔
      clients.length ≤ workers := by
  constructor
  · intro h
    by_contra hlt
    obtain ⟨as, s, hexec, hnot⟩ := exists_not_served hnodup (Nat.lt_of_not_le hlt)
    exact hnot ((h as).last hexec)
  · intro hworkers acts
    exact along_invariant (fun _ _ _ h hs => h.step hs) (fun _ h => h.served hworkers) attended_idle

/-- The ten threads of `rpcs` serve ten clients, and not eleven. -/
theorem pool_served_ten :
    (∀ acts, Along (LockPool.step 10 [0, 1, 2, 3, 4, 5, 6, 7, 8, 9])
        (Served 10 [0, 1, 2, 3, 4, 5, 6, 7, 8, 9]) (.idle 10) acts) ∧
      ¬ ∀ acts, Along (LockPool.step 10 [0, 1, 2, 3, 4, 5, 6, 7, 8, 9, 10])
        (Served 10 [0, 1, 2, 3, 4, 5, 6, 7, 8, 9, 10]) (.idle 10) acts :=
  ⟨(pool_served_iff (by decide)).2 (by decide),
    fun h => absurd ((pool_served_iff (by decide)).1 h) (by decide)⟩

end Yfs
