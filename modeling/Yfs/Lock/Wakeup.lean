import Yfs.Lock.Server

/-!
# Waiting for a lock

The lock server once more, with the condition variable of a lock: who
waits on it, and who was signalled and is still to obtain the mutex again.
`release` signals once, new acquirers may overtake the one signalled, and
a thread that finds the lock taken waits once more. `wakeupPending` says
that no wakeup gets lost over this: while a lock is free and somebody
waits for it, somebody was signalled and has not resumed. Without the
condition variable it is the system of `Lock.Server`
(`WaitSys.step_toLockSys`).
-/

namespace Yfs

open Common

/-- Where a handler is. -/
inductive WaitPc where
  /-- `acquire`, before `locks.count(lid)`. -/
  | count
  /-- `acquire`, before `locks[lid] = lock_t()`. -/
  | assign
  /-- `acquire`, before it obtains the mutex. -/
  | enter
  /-- In `pthread_cond_wait`. -/
  | waiting
  /-- Signalled, before it obtains the mutex again. -/
  | signalled
  /-- The wait returns for no reason, before it obtains the mutex again. -/
  | woken
  /-- `release`, before it obtains the mutex. -/
  | release
deriving DecidableEq

/-- A handler on its thread. -/
structure WaitThread where
  clt : Int32
  lid : UInt64
  pc : WaitPc
deriving DecidableEq

/-- The handler waits on the condition variable of the lock. -/
def WaitThread.Waits (lid : UInt64) (t : WaitThread) : Prop := t.lid = lid ∧ t.pc = .waiting

instance (lid : UInt64) (t : WaitThread) : Decidable (t.Waits lid) :=
  inferInstanceAs (Decidable (_ ∧ _))

/-- The server with its handlers. -/
structure WaitSys where
  /-- `lock_server::locks`. -/
  locks : UInt64 → Option LockT
  threads : List WaitThread
  /-- Who holds which lock. -/
  held : List (Int32 × UInt64)

namespace WaitSys

/-- No handler runs. -/
def idle (locks : UInt64 → Option LockT) (held : List (Int32 × UInt64)) : WaitSys :=
  ⟨locks, [], held⟩

/-- `locks[lid]`. -/
def lockAt (s : WaitSys) (lid : UInt64) : LockT := (s.locks lid).getD .new

/-- `locks[lid] = l`. -/
def setLock (s : WaitSys) (lid : UInt64) (l : LockT) : WaitSys :=
  { s with locks := Function.update s.locks lid (some l) }

/-- `pthread_cond_signal`: one of those that wait is woken, the `w`-th of
the threads, if there are any. -/
def signal (threads : List WaitThread) (lid : UInt64) (w : ℕ) : Option (List WaitThread) :=
  if ∃ t ∈ threads, t.Waits lid then
    threads[w]?.bind fun t =>
      if t.Waits lid then some (threads.set w { t with pc := .signalled }) else none
  else some threads

/-- The section of `acquire` under the mutex, up to the wait or the end. -/
def tryLock (s : WaitSys) (t : WaitThread) (rest : List WaitThread) : WaitSys :=
  if (s.lockAt t.lid).isLocked then
    { s.setLock t.lid (s.lockAt t.lid) with threads := { t with pc := .waiting } :: rest }
  else { s.setLock t.lid ⟨true⟩ with threads := rest, held := (t.clt, t.lid) :: s.held }

/-- The next step of a handler. -/
def run (s : WaitSys) (t : WaitThread) (rest : List WaitThread) (w : ℕ) : Option WaitSys :=
  match t.pc with
  | .count =>
    some { s with
      threads := { t with pc := if (s.locks t.lid).isNone then .assign else .enter } :: rest }
  | .assign => some { s.setLock t.lid .new with threads := { t with pc := .enter } :: rest }
  | .enter => some (s.tryLock t rest)
  | .waiting => none
  | .signalled => some (s.tryLock t rest)
  | .woken => some (s.tryLock t rest)
  | .release =>
    (signal rest t.lid w).map fun threads => { s.setLock t.lid ⟨false⟩ with threads := threads }

/-- What can happen. -/
inductive Act where
  /-- A client calls `acquire`. -/
  | acquire (clt : Int32) (lid : UInt64)
  /-- A client calls `release`. -/
  | release (clt : Int32) (lid : UInt64)
  /-- A handler takes its next step; where it signals, the `w`-th of the
  others is woken. -/
  | run (k w : ℕ)
  /-- A wait returns for no reason. -/
  | wake (k : ℕ)

/-- One step. -/
def step (s : WaitSys) : Act → Option WaitSys
  | .acquire clt lid => some { s with threads := s.threads ++ [⟨clt, lid, .count⟩] }
  | .release clt lid =>
    some { s with
      threads := s.threads ++ [⟨clt, lid, .release⟩], held := s.held.erase (clt, lid) }
  | .run k w => s.threads[k]?.bind fun t => s.run t (s.threads.eraseIdx k) w
  | .wake k =>
    s.threads[k]?.bind fun t =>
      if t.pc = .waiting then some { s with threads := s.threads.set k { t with pc := .woken } }
      else none

end WaitSys

/-- While the lock is free and somebody waits for it, somebody was
signalled and has not resumed. -/
def WakeupPending (lid : UInt64) (s : WaitSys) : Prop :=
  (s.lockAt lid).isLocked = false → (∃ t ∈ s.threads, t.Waits lid) →
    ∃ t ∈ s.threads, t.lid = lid ∧ t.pc = .signalled

/-! ## The condition variable left out -/

/-- The place in `Lock.Server`. -/
def WaitPc.toLockPc : WaitPc → LockPc
  | .count => .count
  | .assign => .assign
  | .release => .release
  | _ => .lock

def WaitThread.toLockThread (t : WaitThread) : LockThread := ⟨t.clt, t.lid, t.pc.toLockPc⟩

def WaitSys.toLockSys (s : WaitSys) : LockSys :=
  ⟨s.locks, s.threads.map WaitThread.toLockThread, s.held⟩

section

variable {s s' : WaitSys} {t : WaitThread} {rest : List WaitThread}

/-- A change of place that `Lock.Server` does not see. -/
theorem map_set_toLockThread {threads : List WaitThread} {k : ℕ} {t t' : WaitThread}
    (hk : threads[k]? = some t) (ht : t'.toLockThread = t.toLockThread) :
    (threads.set k t').map WaitThread.toLockThread = threads.map WaitThread.toLockThread := by
  obtain ⟨hlt, rfl⟩ := List.getElem?_eq_some_iff.1 hk
  rw [List.map_set, ht]
  refine List.ext_getElem (by simp) fun i hi hi' => ?_
  rw [List.getElem_set]
  split
  · rename_i heq
    subst heq
    rw [List.getElem_map]
  · rfl

theorem toLockThread_eq {pc pc' : WaitPc} (ht : t.pc = pc) (h : pc'.toLockPc = pc.toLockPc) :
    WaitThread.toLockThread { t with pc := pc' } = t.toLockThread := by
  unfold WaitThread.toLockThread
  rw [h, ht]

/-- What `signal` does: nothing, where nobody waits, or it wakes one that
waits. -/
theorem signal_cases {lid : UInt64} {w : ℕ} {threads : List WaitThread}
    (h : WaitSys.signal rest lid w = some threads) :
    ((¬ ∃ t ∈ rest, t.Waits lid) ∧ threads = rest) ∨
      ∃ t, rest[w]? = some t ∧ t.Waits lid ∧ threads = rest.set w { t with pc := .signalled } := by
  unfold WaitSys.signal at h
  split at h
  · obtain ⟨t, ht, h⟩ := Option.bind_eq_some_iff.1 h
    rw [Option.ite_none_right_eq_some] at h
    exact .inr ⟨t, ht, h.1, (Option.some.inj h.2).symm⟩
  · rename_i hno
    exact .inl ⟨hno, (Option.some.inj h).symm⟩

theorem toLockSys_tryLock (hpc : t.pc.toLockPc = .lock) :
    (s.tryLock t rest).toLockSys =
      s.toLockSys.run t.toLockThread (rest.map WaitThread.toLockThread) := by
  unfold WaitSys.tryLock LockSys.run
  rw [show t.toLockThread.pc = .lock from hpc]
  dsimp only
  by_cases hlocked : (s.lockAt t.lid).isLocked = true
  · rw [if_pos hlocked, if_pos (show (s.toLockSys.lockAt t.toLockThread.lid).isLocked = true from
      hlocked)]
    have ht : WaitThread.toLockThread { t with pc := .waiting } = t.toLockThread :=
      toLockThread_eq rfl hpc.symm
    unfold WaitSys.toLockSys
    rw [List.map_cons, ht]
    rfl
  · rw [if_neg hlocked, if_neg (show ¬ (s.toLockSys.lockAt t.toLockThread.lid).isLocked = true from
      hlocked)]
    rfl

/-- What a handler does next, without the condition variable. -/
theorem toLockSys_run {w : ℕ} (h : s.run t rest w = some s') :
    s'.toLockSys = s.toLockSys.run t.toLockThread (rest.map WaitThread.toLockThread) := by
  obtain ⟨clt, lid, pc⟩ := t
  rcases pc with _ | _ | _ | _ | _ | _ | _
  · obtain rfl := Option.some.inj h
    unfold WaitSys.toLockSys LockSys.run
    by_cases hnone : (s.locks lid).isNone = true
    · simp [WaitThread.toLockThread, WaitPc.toLockPc, hnone]
    · simp [WaitThread.toLockThread, WaitPc.toLockPc, hnone]
  · obtain rfl := Option.some.inj h
    rfl
  · obtain rfl := Option.some.inj h
    exact toLockSys_tryLock rfl
  · exact absurd h.symm (Option.some_ne_none s')
  · obtain rfl := Option.some.inj h
    exact toLockSys_tryLock rfl
  · obtain rfl := Option.some.inj h
    exact toLockSys_tryLock rfl
  · obtain ⟨threads, hsig, rfl⟩ := Option.map_eq_some_iff.1 h
    have hmap : threads.map WaitThread.toLockThread = rest.map WaitThread.toLockThread := by
      obtain ⟨-, rfl⟩ | ⟨u, hu, hwaits, rfl⟩ := signal_cases hsig
      · rfl
      · exact map_set_toLockThread hu (toLockThread_eq hwaits.2 rfl)
    unfold WaitSys.toLockSys
    rw [hmap]
    rfl

/-- **Without the condition variable it is the server of `Lock.Server`**:
a step is one of that server, or nothing there. Clients release the locks
that they hold. -/
theorem WaitSys.step_toLockSys {a : WaitSys.Act}
    (hheld : ∀ clt lid, a = .release clt lid → (clt, lid) ∈ s.held) (h : s.step a = some s') :
    s'.toLockSys = s.toLockSys ∨ ∃ b, s.toLockSys.step b = some s'.toLockSys := by
  rcases a with ⟨clt, lid⟩ | ⟨clt, lid⟩ | ⟨k, w⟩ | k
  · obtain rfl := Option.some.inj h
    refine .inr ⟨.acquire clt lid, ?_⟩
    simp [LockSys.step, WaitSys.toLockSys, WaitThread.toLockThread, WaitPc.toLockPc]
  · obtain rfl := Option.some.inj h
    refine .inr ⟨.release clt lid, ?_⟩
    have hmem : (clt, lid) ∈ s.toLockSys.held := hheld clt lid rfl
    simp only [LockSys.step, if_pos hmem]
    simp [WaitSys.toLockSys, WaitThread.toLockThread, WaitPc.toLockPc]
  · obtain ⟨t, hk, hrun⟩ := Option.bind_eq_some_iff.1 h
    refine .inr ⟨.run k, ?_⟩
    have ht : s.toLockSys.threads[k]? = some t.toLockThread := by
      unfold WaitSys.toLockSys
      rw [List.getElem?_map, hk]
      rfl
    have hrest : s.toLockSys.threads.eraseIdx k =
        (s.threads.eraseIdx k).map WaitThread.toLockThread := List.eraseIdx_map ..
    simp only [LockSys.step]
    rw [ht, Option.map_some, toLockSys_run hrun, hrest]
  · obtain ⟨t, hk, h⟩ := Option.bind_eq_some_iff.1 h
    rw [Option.ite_none_right_eq_some] at h
    obtain ⟨hpc, rfl⟩ := h.imp_right Option.some.inj
    left
    unfold WaitSys.toLockSys
    dsimp only
    have hsame : WaitThread.toLockThread { t with pc := .woken } = t.toLockThread :=
      toLockThread_eq hpc rfl
    rw [map_set_toLockThread hk hsame]

end

/-! ## No wakeup is lost -/

/-- The invariant of a lock that exists: it stays, so no handler is about
to assign a new one, and a wakeup is on its way where one is due. -/
structure Wakeful (lid : UInt64) (s : WaitSys) : Prop where
  exists_lock : (s.locks lid).isSome
  not_assign : ∀ t ∈ s.threads, t.lid = lid → t.pc ≠ .assign
  pending : WakeupPending lid s

section

variable {s s' : WaitSys} {t : WaitThread} {rest : List WaitThread} {lid : UInt64}

/-- A step that leaves the lock alone, sends nobody to wait and resumes
nobody who was signalled. -/
theorem Wakeful.of_unlocked (h : Wakeful lid s) (hlocks : s'.locks lid = s.locks lid)
    (hassign : ∀ t ∈ s'.threads, t.lid = lid → t.pc = .assign → t ∈ s.threads)
    (hwaits : ∀ t ∈ s'.threads, t.Waits lid → t ∈ s.threads)
    (hsignalled : ∀ t ∈ s.threads, t.lid = lid → t.pc = .signalled → t ∈ s'.threads) :
    Wakeful lid s' where
  exists_lock := hlocks ▸ h.exists_lock
  not_assign t ht hlid hpc := h.not_assign t (hassign t ht hlid hpc) hlid hpc
  pending hfree hsome := by
    obtain ⟨u, hu, huwaits⟩ := hsome
    have hfree' : (s.lockAt lid).isLocked = false := by
      unfold WaitSys.lockAt at hfree ⊢
      rw [← hlocks]
      exact hfree
    obtain ⟨v, hv, hvlid, hvpc⟩ := h.pending hfree' ⟨u, hwaits u hu huwaits, huwaits⟩
    exact ⟨v, hsignalled v hv hvlid hvpc, hvlid, hvpc⟩

/-- A step after which the lock is locked: no wakeup is due. -/
theorem Wakeful.of_locked (hlocks : s'.locks lid = some ⟨true⟩)
    (hassign : ∀ t ∈ s'.threads, t.lid = lid → t.pc ≠ .assign) : Wakeful lid s' where
  exists_lock := by rw [hlocks, Option.isSome_some]
  not_assign := hassign
  pending hfree _ := by
    unfold WaitSys.lockAt at hfree
    rw [hlocks] at hfree
    exact absurd hfree.symm Bool.false_ne_true

/-- The section of `acquire` under the mutex: the lock is locked after it,
whether the handler took it or waits. -/
theorem Wakeful.tryLock (h : Wakeful t.lid s) (ht : s.threads.Perm (t :: rest)) :
    Wakeful t.lid (s.tryLock t rest) := by
  have hrest : ∀ u ∈ rest, u.lid = t.lid → u.pc ≠ .assign :=
    fun u hu => h.not_assign u ((mem_of_pick ht).2 (.inr hu))
  unfold WaitSys.tryLock
  split
  · rename_i hlocked
    refine .of_locked ?_ fun u hu hlid => ?_
    · show Function.update s.locks t.lid (some (s.lockAt t.lid)) t.lid = some ⟨true⟩
      rw [Function.update_self]
      exact congrArg some (congrArg LockT.mk hlocked)
    · obtain rfl | hu := List.mem_cons.1 hu
      · exact WaitPc.noConfusion
      · exact hrest u hu hlid
  · exact .of_locked (Function.update_self ..) hrest

/-- What a handler does to the other locks: nothing, and nothing to the
handlers of these. -/
theorem run_other {w : ℕ} (hne : lid ≠ t.lid) (hrun : s.run t rest w = some s') :
    s'.locks lid = s.locks lid ∧ ∀ u, u.lid = lid → (u ∈ s'.threads ↔ u ∈ rest) := by
  have hset : ∀ l, Function.update s.locks t.lid (some l) lid = s.locks lid :=
    fun l => Function.update_of_ne hne ..
  have hcons : ∀ pc u, u.lid = lid → (u ∈ { t with pc := pc } :: rest ↔ u ∈ rest) := by
    intro pc u hu
    rw [List.mem_cons, or_iff_right]
    rintro rfl
    exact hne hu.symm
  have hlock : (s.tryLock t rest).locks lid = s.locks lid ∧
      ∀ u, u.lid = lid → (u ∈ (s.tryLock t rest).threads ↔ u ∈ rest) := by
    unfold WaitSys.tryLock
    split
    · exact ⟨hset _, hcons _⟩
    · exact ⟨hset _, fun _ _ => Iff.rfl⟩
  unfold WaitSys.run at hrun
  split at hrun
  · obtain rfl := Option.some.inj hrun
    exact ⟨rfl, hcons _⟩
  · obtain rfl := Option.some.inj hrun
    exact ⟨hset _, hcons _⟩
  · obtain rfl := Option.some.inj hrun
    exact hlock
  · exact absurd hrun.symm (Option.some_ne_none s')
  · obtain rfl := Option.some.inj hrun
    exact hlock
  · obtain rfl := Option.some.inj hrun
    exact hlock
  · obtain ⟨threads, hsig, rfl⟩ := Option.map_eq_some_iff.1 hrun
    refine ⟨hset _, fun u hu => ?_⟩
    obtain ⟨-, rfl⟩ | ⟨v, hv, hwaits, rfl⟩ := signal_cases hsig
    · exact Iff.rfl
    · refine mem_set_of_ne hv ?_ ?_
      · rintro rfl
        exact hne (hu.symm.trans hwaits.1)
      · rintro rfl
        exact hne (hu.symm.trans hwaits.1)

/-- `release`: somebody is signalled where somebody waits. -/
theorem Wakeful.release {w : ℕ} {threads : List WaitThread} (h : Wakeful t.lid s)
    (ht : s.threads.Perm (t :: rest)) (hsig : WaitSys.signal rest t.lid w = some threads) :
    Wakeful t.lid { s.setLock t.lid ⟨false⟩ with threads := threads } where
  exists_lock := by
    show (Function.update s.locks t.lid (some ⟨false⟩) t.lid).isSome = true
    rw [Function.update_self, Option.isSome_some]
  not_assign u hu hlid := by
    have hrest : ∀ v ∈ rest, v.lid = t.lid → v.pc ≠ .assign :=
      fun v hv => h.not_assign v ((mem_of_pick ht).2 (.inr hv))
    obtain ⟨-, rfl⟩ | ⟨v, hv, -, rfl⟩ := signal_cases hsig
    · exact hrest u hu hlid
    · obtain hu | rfl := List.mem_or_eq_of_mem_set hu
      · exact hrest u hu hlid
      · exact WaitPc.noConfusion
  pending _ hsome := by
    obtain ⟨hno, rfl⟩ | ⟨v, hv, hwaits, rfl⟩ := signal_cases hsig
    · exact absurd hsome hno
    · -- the one that was chosen is the witness, whoever else waits
      exact ⟨{ v with pc := .signalled }, mem_set_self hv, hwaits.1, rfl⟩

/-- **A step of a handler.** -/
theorem Wakeful.run {w : ℕ} (h : Wakeful lid s) (ht : s.threads.Perm (t :: rest))
    (hrun : s.run t rest w = some s') : Wakeful lid s' := by
  have hrest : ∀ u ∈ rest, u ∈ s.threads := fun u hu => (mem_of_pick ht).2 (.inr hu)
  by_cases hne : lid ≠ t.lid
  · -- a handler of another lock
    obtain ⟨hlocks, hmem⟩ := run_other hne hrun
    refine h.of_unlocked hlocks (fun u hu hlid _ => hrest u ((hmem u hlid).1 hu))
      (fun u hu hwaits => hrest u ((hmem u hwaits.1).1 hu)) fun u hu hlid _ => ?_
    refine (hmem u hlid).2 (((mem_of_pick ht).1 hu).resolve_left ?_)
    rintro rfl
    exact hne hlid.symm
  obtain rfl := not_not.1 hne
  unfold WaitSys.run at hrun
  split at hrun
  · -- the test finds the lock
    rename_i hpc
    obtain rfl := Option.some.inj hrun
    have hsome : ¬ (s.locks t.lid).isNone = true := by
      rw [Option.isNone_iff_eq_none, ← Option.not_isSome_iff_eq_none, not_not]
      exact h.exists_lock
    rw [if_neg hsome]
    have hmem : ∀ u ∈ { t with pc := .enter } :: rest, u.pc ≠ .enter → u ∈ s.threads := by
      intro u hu hne
      obtain rfl | hu := List.mem_cons.1 hu
      · exact absurd rfl hne
      · exact hrest u hu
    refine h.of_unlocked rfl (fun u hu _ hu' => hmem u hu (by rw [hu']; exact WaitPc.noConfusion))
      (fun u hu hu' => hmem u hu (by rw [hu'.2]; exact WaitPc.noConfusion)) fun u hu _ hu' => ?_
    obtain rfl | hu := (mem_of_pick ht).1 hu
    · rw [hpc] at hu'
      exact WaitPc.noConfusion hu'
    · exact List.mem_cons_of_mem _ hu
  · -- nobody assigns a lock that exists
    rename_i hpc
    exact absurd hpc (h.not_assign t ((mem_of_pick ht).2 (.inl rfl)) rfl)
  · obtain rfl := Option.some.inj hrun
    exact h.tryLock ht
  · exact absurd hrun.symm (Option.some_ne_none s')
  · -- the one that was signalled resumes: it takes the lock, or finds it taken and waits again
    obtain rfl := Option.some.inj hrun
    exact h.tryLock ht
  · obtain rfl := Option.some.inj hrun
    exact h.tryLock ht
  · obtain ⟨threads, hsig, rfl⟩ := Option.map_eq_some_iff.1 hrun
    exact h.release ht hsig

/-- A call begins: its handler neither waits nor assigns. -/
theorem Wakeful.append (h : Wakeful lid s) (hlocks : s'.locks = s.locks)
    (hthreads : s'.threads = s.threads ++ [t]) (hassign : t.pc ≠ .assign)
    (hwaits : t.pc ≠ .waiting) : Wakeful lid s' := by
  have hmem : ∀ u ∈ s'.threads, u ≠ t → u ∈ s.threads := by
    intro u hu hne
    rw [hthreads, List.mem_append, List.mem_singleton] at hu
    exact hu.resolve_right hne
  refine h.of_unlocked (congrFun hlocks lid) (fun u hu _ hpc => hmem u hu ?_)
    (fun u hu hpc => hmem u hu ?_) fun u hu _ _ => ?_
  · rintro rfl
    exact hassign hpc
  · rintro rfl
    exact hwaits hpc.2
  · rw [hthreads]
    exact List.mem_append_left _ hu

/-- **One step** keeps the invariant. -/
theorem Wakeful.step {a : WaitSys.Act} (h : Wakeful lid s) (hs : s.step a = some s') :
    Wakeful lid s' := by
  rcases a with ⟨clt, lid'⟩ | ⟨clt, lid'⟩ | ⟨k, w⟩ | k
  · obtain rfl := Option.some.inj hs
    exact h.append rfl rfl WaitPc.noConfusion WaitPc.noConfusion
  · obtain rfl := Option.some.inj hs
    exact h.append rfl rfl WaitPc.noConfusion WaitPc.noConfusion
  · obtain ⟨t, hk, hrun⟩ := Option.bind_eq_some_iff.1 hs
    exact h.run (perm_eraseIdx hk) hrun
  · -- the wait returns for no reason: one that waits is gone, nobody is signalled less
    obtain ⟨t, hk, hs⟩ := Option.bind_eq_some_iff.1 hs
    rw [Option.ite_none_right_eq_some] at hs
    obtain ⟨hpc, rfl⟩ := hs.imp_right Option.some.inj
    have hmem : ∀ u ∈ s.threads.set k { t with pc := .woken }, u.pc ≠ .woken → u ∈ s.threads := by
      intro u hu hne
      obtain hu | rfl := List.mem_or_eq_of_mem_set hu
      · exact hu
      · exact absurd rfl hne
    refine h.of_unlocked rfl (fun u hu _ hu' => hmem u hu (by rw [hu']; exact WaitPc.noConfusion))
      (fun u hu hu' => hmem u hu (by rw [hu'.2]; exact WaitPc.noConfusion)) fun u hu _ hu' => ?_
    refine (mem_set_of_ne hk ?_ ?_).2 hu
    · rintro rfl
      rw [hpc] at hu'
      exact WaitPc.noConfusion hu'
    · rintro rfl
      exact WaitPc.noConfusion hu'

end

/-- **No wakeup is lost.** For a lock that exists, locked or free, however
the handlers of any number of clients interleave and whomever the signals
wake: in every state of the run in which the lock is free and somebody
waits for it, somebody was signalled and has not resumed. -/
theorem wakeupPending (locks : UInt64 → Option LockT) (held : List (Int32 × UInt64)) (lid : UInt64)
    (hlid : (locks lid).isSome) (acts : List WaitSys.Act) :
    Along WaitSys.step (WakeupPending lid) (.idle locks held) acts := by
  have hidle : Wakeful lid (.idle locks held) := by
    refine ⟨hlid, fun t ht => absurd ht List.not_mem_nil, fun _ hsome => ?_⟩
    obtain ⟨t, ht, -⟩ := hsome
    exact absurd ht List.not_mem_nil
  exact along_invariant (fun _ _ _ h hs => h.step hs) (fun _ h => h.pending) hidle

/-- A third client holds the lock and two wait for it; it is released, and
a fourth overtakes the one that was signalled, then releases it as well. -/
def overtaken : List WaitSys.Act :=
  [.acquire 1 7, .run 0 0, .run 0 0, .acquire 2 7, .run 1 0, .run 0 0, .release 3 7, .run 2 1,
    .acquire 4 7, .run 2 0, .run 0 0, .run 1 0, .release 4 7, .run 2 1]

/-- At its end the first client waits again and the second is signalled. -/
theorem wakeupPending_overtaken :
    ((exec WaitSys.step (.idle (fun _ => some ⟨true⟩) [(3, 7)]) overtaken).map (·.threads) =
        some [⟨1, 7, .waiting⟩, ⟨2, 7, .signalled⟩]) ∧
      Along WaitSys.step (WakeupPending 7) (.idle (fun _ => some ⟨true⟩) [(3, 7)]) overtaken :=
  ⟨by decide, wakeupPending _ _ 7 rfl overtaken⟩

end Yfs
