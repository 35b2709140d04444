import Mathlib.Algebra.Group.Nat.Defs
import Mathlib.Logic.Function.Basic
import Yfs.Common.Pick
import Yfs.Common.Run

/-!
# The lock server

`lock_server` of `lock_server.cc`. The handlers `acquire` and `release`
run on the dispatch threads; the test of `locks.count(lid)`, the
assignment of a new lock, and each section under the mutex of a lock are
the steps that nothing comes between. `exclusive_of_keepsLocked` is mutual
exclusion, for the runs in which no thread assigns a new lock over one
that is locked: the test and the assignment are under no mutex, and two
first acquirers can both find that there is no lock.
-/

namespace Yfs

open Common

/-- `lock_server::lock_t`. Its mutex is in the choice of the steps. Its
condition variable leaves no trace: a wait may end at any time, signalled
or not, as the loop around it expects. -/
structure LockT where
  isLocked : Bool
deriving DecidableEq

/-- What the constructor of `lock_t` leaves. -/
def LockT.new : LockT := ⟨false⟩

/-- Where a handler is. -/
inductive LockPc where
  /-- `acquire`, before `locks.count(lid)`. -/
  | count
  /-- `acquire`, before `locks[lid] = lock_t()`. -/
  | assign
  /-- `acquire`, before its section under the mutex, or in the wait. -/
  | lock
  /-- `release`, before its section under the mutex. -/
  | release
deriving DecidableEq

/-- A handler on its thread. -/
structure LockThread where
  clt : Int32
  lid : UInt64
  pc : LockPc
deriving DecidableEq

/-- The server, the handlers that run, and who holds which lock: from the
end of the section of its `acquire` to the start of its `release`. -/
structure LockSys where
  /-- `lock_server::locks`. -/
  locks : UInt64 → Option LockT
  threads : List LockThread
  held : List (Int32 × UInt64)

namespace LockSys

/-- The start. -/
def new : LockSys := ⟨fun _ => none, [], []⟩

/-- `locks[lid]`, which makes the lock where there is none. -/
def lockAt (s : LockSys) (lid : UInt64) : LockT := (s.locks lid).getD .new

/-- `locks[lid] = l`. -/
def setLock (s : LockSys) (lid : UInt64) (l : LockT) : LockSys :=
  { s with locks := Function.update s.locks lid (some l) }

/-- The next step of a handler, with the other handlers `rest`. -/
def run (s : LockSys) (t : LockThread) (rest : List LockThread) : LockSys :=
  match t.pc with
  | .count =>
    { s with
      threads := { t with pc := if (s.locks t.lid).isNone then .assign else .lock } :: rest }
  | .assign => { s.setLock t.lid .new with threads := { t with pc := .lock } :: rest }
  | .lock =>
    if (s.lockAt t.lid).isLocked then { s.setLock t.lid (s.lockAt t.lid) with threads := t :: rest }
    else { s.setLock t.lid ⟨true⟩ with threads := rest, held := (t.clt, t.lid) :: s.held }
  | .release => { s.setLock t.lid ⟨false⟩ with threads := rest }

/-- What can happen. -/
inductive Act where
  /-- A client calls `acquire`. -/
  | acquire (clt : Int32) (lid : UInt64)
  /-- A client calls `release`, of a lock that it holds. -/
  | release (clt : Int32) (lid : UInt64)
  /-- A handler takes its next step. -/
  | run (k : ℕ)

/-- One step. -/
def step (s : LockSys) : Act → Option LockSys
  | .acquire clt lid => some { s with threads := s.threads ++ [⟨clt, lid, .count⟩] }
  | .release clt lid =>
    if (clt, lid) ∈ s.held then
      some { s with
        threads := s.threads ++ [⟨clt, lid, .release⟩], held := s.held.erase (clt, lid) }
    else none
  | .run k => s.threads[k]?.map fun t => s.run t (s.threads.eraseIdx k)

end LockSys

variable {s s' : LockSys} {lid : UInt64}

/-- No lock is held by two clients. -/
def Exclusive (s : LockSys) : Prop :=
  ∀ lid c c', (c, lid) ∈ s.held → (c', lid) ∈ s.held → c = c'

/-- The step does not assign a new lock over one that is locked. -/
def KeepsLocked (s : LockSys) : LockSys.Act → Prop
  | .run k => ∀ t ∈ s.threads[k]?, t.pc = .assign → (s.lockAt t.lid).isLocked = false
  | _ => True

instance : (s : LockSys) → (a : LockSys.Act) → Decidable (KeepsLocked s a)
  | s, .run k => inferInstanceAs (Decidable (∀ t ∈ s.threads[k]?, _))
  | _, .acquire _ _ => inferInstanceAs (Decidable True)
  | _, .release _ _ => inferInstanceAs (Decidable True)

/-! ## Claims to a lock -/

/-- The handler is about to release `lid`. -/
def LockThread.Releases (lid : UInt64) (t : LockThread) : Prop := t.lid = lid ∧ t.pc = .release

instance (lid : UInt64) (t : LockThread) : Decidable (t.Releases lid) :=
  inferInstanceAs (Decidable (_ ∧ _))

/-- Those who hold a lock, and those who are releasing it. -/
def LockSys.claims (s : LockSys) (lid : UInt64) : ℕ :=
  s.held.countP (fun h => h.2 = lid) + s.threads.countP (fun t => t.Releases lid)

/-- The invariant: a lock has one claim at most, and none where it is not
locked. -/
def ClaimsLocked (s : LockSys) : Prop :=
  ∀ lid, s.claims lid ≤ if (s.lockAt lid).isLocked then 1 else 0

theorem claimsLocked_new : ClaimsLocked .new := fun _ => Nat.le_refl 0

theorem lockAt_update (locks : UInt64 → Option LockT) (threads : List LockThread)
    (held : List (Int32 × UInt64)) (lid lid' : UInt64) (l : LockT) :
    LockSys.lockAt ⟨Function.update locks lid (some l), threads, held⟩ lid' =
      if lid' = lid then l else LockSys.lockAt ⟨locks, threads, held⟩ lid' := by
  unfold LockSys.lockAt
  dsimp only
  by_cases h : lid' = lid
  · rw [if_pos h, h, Function.update_self, Option.getD_some]
  · rw [if_neg h, Function.update_of_ne h]

/-- The claims, with one handler apart. -/
theorem claims_pick {t : LockThread} {rest : List LockThread}
    (ht : s.threads.Perm (t :: rest)) (lid : UInt64) :
    s.claims lid = s.held.countP (fun h => h.2 = lid) +
      (rest.countP (fun t => t.Releases lid) + if t.Releases lid then 1 else 0) := by
  rw [LockSys.claims, ht.countP_eq, List.countP_cons]
  simp only [decide_eq_true_eq]

theorem not_releases {t : LockThread} (h : t.pc ≠ .release) : ¬ t.Releases lid := fun hr => h hr.2

/-- **A step of a handler** keeps the invariant. -/
theorem ClaimsLocked.run {t : LockThread} {rest : List LockThread} (h : ClaimsLocked s)
    (ht : s.threads.Perm (t :: rest))
    (hkeep : t.pc = .assign → (s.lockAt t.lid).isLocked = false) : ClaimsLocked (s.run t rest) := by
  intro lid
  have hclaims := h lid
  rw [claims_pick ht lid] at hclaims
  rw [LockSys.run]
  split
  · -- the test: nothing but the place of the handler changes
    rename_i hpc
    rw [if_neg (not_releases (by rw [hpc]; decide))] at hclaims
    rw [claims_pick (List.Perm.refl _), if_neg (not_releases (by dsimp only; split <;> decide))]
    exact hclaims
  · -- the assignment: by `hkeep` the lock has no claims
    rename_i hpc
    rw [if_neg (not_releases (by rw [hpc]; decide))] at hclaims
    rw [claims_pick (List.Perm.refl _), if_neg (not_releases (by simp)), LockSys.setLock,
      lockAt_update]
    by_cases hlid : lid = t.lid
    · rw [hlid, hkeep hpc] at hclaims
      rw [hlid]
      exact Nat.le_trans hclaims (Nat.zero_le _)
    · rw [if_neg hlid]
      exact hclaims
  · rename_i hpc
    rw [if_neg (not_releases (by rw [hpc]; decide))] at hclaims
    split
    · -- the wait: the lock is as it was
      rw [claims_pick (List.Perm.refl _), if_neg (not_releases (by rw [hpc]; decide)),
        LockSys.setLock, lockAt_update]
      by_cases hlid : lid = t.lid
      · rw [if_pos hlid, ← hlid]
        exact hclaims
      · rw [if_neg hlid]
        exact hclaims
    · -- the grant: the first claim to a lock that was not locked
      rename_i hfree
      rw [LockSys.claims, LockSys.setLock, lockAt_update]
      dsimp only
      rw [List.countP_cons]
      by_cases hlid : lid = t.lid
      · rw [hlid, if_neg hfree] at hclaims
        rw [hlid, if_pos rfl, if_pos rfl, if_pos (by simp)]
        omega
      · rw [if_neg hlid, if_neg (by simpa using Ne.symm hlid)]
        exact hclaims
  · -- the release: the claim ends
    rename_i hpc
    rw [LockSys.claims, LockSys.setLock, lockAt_update]
    dsimp only
    by_cases hlid : lid = t.lid
    · rw [if_pos ⟨hlid.symm, hpc⟩] at hclaims
      rw [if_pos hlid, if_neg (by decide)]
      split at hclaims
      · omega
      · omega
    · rw [if_neg (fun hr => hlid hr.1.symm)] at hclaims
      rw [if_neg hlid]
      exact hclaims

theorem ClaimsLocked.step {a : LockSys.Act} (h : ClaimsLocked s) (hkeep : KeepsLocked s a)
    (hs : s.step a = some s') : ClaimsLocked s' := by
  cases a with
  | acquire clt lid =>
    obtain rfl := Option.some.inj hs
    intro lid'
    have hnot : ¬ LockThread.Releases lid' ⟨clt, lid, .count⟩ := not_releases (by simp)
    rw [LockSys.claims, List.countP_append, List.countP_cons_of_neg (by simpa using hnot),
      List.countP_nil]
    exact h lid'
  | release clt lid =>
    unfold LockSys.step at hs
    dsimp only at hs
    split at hs
    · rename_i hmem
      obtain rfl := Option.some.inj hs
      intro lid'
      -- the claim of the one who holds the lock becomes that of the handler
      have hclaims := h lid'
      have hperm := List.perm_cons_erase hmem
      rw [LockSys.claims, hperm.countP_eq, List.countP_cons] at hclaims
      rw [LockSys.claims, List.countP_append]
      simp only [List.countP_singleton, LockThread.Releases, and_true] at hclaims ⊢
      exact Nat.le_trans (Nat.le_of_eq (by omega)) hclaims
    · cases hs
  | run k =>
    obtain ⟨t, ht, rfl⟩ := Option.map_eq_some_iff.1 hs
    exact h.run (perm_eraseIdx ht) (hkeep t ht)

/-- Two claims to a lock by holding it are one. -/
theorem ClaimsLocked.exclusive (h : ClaimsLocked s) : Exclusive s := by
  intro lid c c' hc hc'
  by_contra hne
  have hclaims := h lid
  have hperm := List.perm_cons_erase hc
  have hc'' : (c', lid) ∈ s.held.erase (c, lid) := by
    refine (List.mem_erase_of_ne ?_).2 hc'
    intro heq
    exact hne (congrArg Prod.fst heq).symm
  have hperm' := List.perm_cons_erase hc''
  rw [LockSys.claims, hperm.countP_eq, List.countP_cons, hperm'.countP_eq, List.countP_cons,
    if_pos (by simp)] at hclaims
  split at hclaims
  · omega
  · omega

/-- **Mutual exclusion.** However the handlers of any number of clients
interleave, as long as none assigns a new lock over one that is locked, no
lock is held by two clients in any state of the run. -/
theorem exclusive_of_keepsLocked {acts : List LockSys.Act}
    (hkeep : Steps LockSys.step KeepsLocked .new acts) :
    Along LockSys.step Exclusive .new acts :=
  along_of_steps (fun _ _ _ h hk hs => h.step hk hs) (fun _ h => h.exclusive) claimsLocked_new hkeep

/-- The first client makes the lock, the second waits for it and gets it. -/
def waitsForLock : List LockSys.Act :=
  [.acquire 1 7, .run 0, .run 0, .run 0, .acquire 2 7, .run 0, .run 0, .release 1 7, .run 1, .run 0]

theorem exclusive_waitsForLock :
    (∃ s, exec LockSys.step .new waitsForLock = some s ∧ s.held = [(2, 7)]) ∧
      Along LockSys.step Exclusive .new waitsForLock :=
  ⟨⟨_, rfl, rfl⟩, exclusive_of_keepsLocked (by decide)⟩

/-- Both clients find that there is no lock; the second is granted its
own, and the first then assigns a new one. -/
theorem not_exclusive_first_acquirers :
    ¬ Along LockSys.step Exclusive .new
      [.acquire 1 7, .acquire 2 7, .run 0, .run 1, .run 0, .run 0, .run 0, .run 0] := by
  intro h
  have hlast := h.last rfl
  have hsame := hlast 7 1 2 (by decide) (by decide)
  exact absurd hsame (by decide)

end Yfs
