import Mathlib.Algebra.BigOperators.Group.Finset.Piecewise
import Mathlib.Algebra.Group.Action.Defs
import Mathlib.Algebra.Order.BigOperators.Group.Finset
import Mathlib.Data.Fintype.Card
import Yfs.Rpc.System

/-!
# Callers on the stack

`System` takes `got_pdu` and the end of `call1` for single steps. Here they
are what they are: a call keeps its `caller` on its own stack, enters and
leaves `calls_` under `m_`, and waits for `done` under the caller's mutex;
the poll thread finds the caller in `calls_` under `m_`, and completes and
signals it under both. `along_tended` says that this is the same. The poll
thread never touches a caller whose call has left, no call sleeps on that
has its reply, the two mutexes never block each other, and a call returns
the one reply that was taken in for it, or times out and there was none.
-/

namespace Yfs

open Common

namespace Rpc

/-- Where a thread is in `call1`. -/
inductive CallPc where
  /-- In no call. -/
  | idle
  /-- Before `m_`, to enter `calls_`. -/
  | enter
  /-- At the top of the loop, in no mutex. -/
  | top
  /-- Before `ca.m`. -/
  | lock
  /-- In `ca.m`, before it tests `ca.done`. -/
  | test
  /-- In `pthread_cond_timedwait`. -/
  | waiting
  /-- Woken, before it has `ca.m` again. -/
  | woken
  /-- Timed out, before it has `ca.m` again. -/
  | timedout
  /-- In `ca.m` after a timeout. -/
  | expired
  /-- Before `m_`, to leave `calls_`. -/
  | leave
  /-- Before `ca.m`, for the last time. -/
  | last
deriving DecidableEq

/-- The thread's caller is in `calls_`. -/
def CallPc.inside : CallPc → Bool
  | .idle => false
  | .enter => false
  | .last => false
  | _ => true

/-- The thread holds `ca.m`. -/
def CallPc.holds : CallPc → Bool
  | .test => true
  | .expired => true
  | _ => false

/-- A thread, and the `caller` on its stack while it is in a call. -/
structure Frame (ρ : Type) where
  pc : CallPc
  xid : ℕ
  done : Bool
  intret : Int32
  /-- What was taken into `*un`. -/
  un : Option ρ
  /-- `ca.m` is held. -/
  locked : Bool
  /-- Which of all calls it is. The source has no such number. -/
  no : ℕ

/-- Where the poll thread is in `got_pdu`. -/
inductive UpcallPc (κ ρ : Type) where
  | idle
  /-- In `m_`, with the caller `ca` of this thread, before `ca->m`. -/
  | found (k : κ) (xid : ℕ) (ret : Int32) (rep : ρ)
  /-- In `m_` and `ca->m`, before the broadcast. -/
  | filled (k : κ) (xid : ℕ)

/-- What is recorded. -/
inductive CallEvent (ρ : Type) where
  /-- `got_pdu` completed the call `no`. -/
  | took (no : ℕ) (ret : Int32) (rep : ρ)
  /-- The call `no` returned, with this in `*un`. -/
  | returned (no : ℕ) (ret : Int32) (un : Option ρ)

/-- The threads of a client, and its poll thread. -/
structure CallerSys (κ ρ : Type) where
  frames : κ → Frame ρ
  /-- `m_` is held. -/
  locked : Bool
  /-- `xid_`. -/
  xid : ℕ
  /-- `calls_`. -/
  calls : ℕ → Option κ
  upcall : UpcallPc κ ρ
  /-- The number of calls so far. -/
  count : ℕ
  log : List (CallEvent ρ)

namespace CallerSys

variable {κ ρ : Type}

/-- No call has been made. -/
def init : CallerSys κ ρ :=
  ⟨fun _ => ⟨.idle, 0, false, 0, none, false, 0⟩, false, 1, fun _ => none, .idle, 0, []⟩

/-- What can happen. -/
inductive Act (κ ρ : Type) where
  /-- A thread calls `call1`. -/
  | call (k : κ)
  /-- The next step of a thread; at the top of the loop, `final` says
  whether `finaldeadline` is used up. -/
  | run (k : κ) (final : Bool)
  /-- A wait times out. -/
  | expire (k : κ)
  /-- A wait returns for no reason. -/
  | wake (k : κ)
  /-- The poll thread calls `got_pdu` with a reply. -/
  | gotPdu (xid : ℕ) (ret : Int32) (rep : ρ)
  /-- The next step of the poll thread. -/
  | poll

variable [DecidableEq κ]

/-- The thread `k` after a step of its own. -/
def setFrame (s : CallerSys κ ρ) (k : κ) (fr : Frame ρ) : CallerSys κ ρ :=
  { s with frames := Function.update s.frames k fr }

/-- The thread `k`, one step on. -/
def goto (s : CallerSys κ ρ) (k : κ) (pc : CallPc) : CallerSys κ ρ :=
  s.setFrame k { s.frames k with pc := pc }

/-- The same, out of or into `ca.m`. -/
def gotoWith (s : CallerSys κ ρ) (k : κ) (pc : CallPc) (locked : Bool) : CallerSys κ ρ :=
  s.setFrame k { s.frames k with pc := pc, locked := locked }

/-- What `call1` returns. -/
def result (fr : Frame ρ) : Int32 := if fr.done then fr.intret else timeoutFailure

/-- The next step of `call1`. A thread that waits has none, nor one that
is before a mutex somebody holds. -/
def run (s : CallerSys κ ρ) (k : κ) (final : Bool) : Option (CallerSys κ ρ) :=
  let ca := s.frames k
  match ca.pc with
  | .idle => none
  | .enter =>
    if s.locked then none
    else some { s.setFrame k { ca with pc := .top, xid := s.xid, no := s.count } with
      xid := (s.xid + 1) % 2 ^ 32
      calls := Function.update s.calls s.xid (some k)
      count := s.count + 1 }
  | .top => some (s.goto k (if final then .leave else .lock))
  | .lock => if ca.locked then none else some (s.gotoWith k .test true)
  | .test => some (s.gotoWith k (if ca.done then .leave else .waiting) false)
  | .waiting => none
  | .woken => if ca.locked then none else some (s.gotoWith k .test true)
  | .timedout => if ca.locked then none else some (s.gotoWith k .expired true)
  | .expired => some (s.gotoWith k (if ca.done then .leave else .top) false)
  | .leave =>
    if s.locked then none
    else some { s.goto k .last with calls := Function.update s.calls ca.xid none }
  | .last =>
    if ca.locked then none
    else some { s.goto k .idle with log := .returned ca.no (result ca) ca.un :: s.log }

/-- `pthread_cond_broadcast` on `ca.c`, where only the call itself waits,
and the end of both locks. -/
def broadcast (s : CallerSys κ ρ) (k : κ) : CallerSys κ ρ :=
  let ca := s.frames k
  { s.gotoWith k (if ca.pc = .waiting then .woken else ca.pc) false with
    locked := false, upcall := .idle }

/-- The next step of `got_pdu`. -/
def poll (s : CallerSys κ ρ) : Option (CallerSys κ ρ) :=
  match s.upcall with
  | .idle => none
  | .found k xid ret rep =>
    let ca := s.frames k
    if ca.locked then none
    else if ca.done then some { s.gotoWith k ca.pc true with upcall := .filled k xid }
    else
      some { s.setFrame k { ca with
          done := true, intret := ret, un := some rep, locked := true } with
        upcall := .filled k xid, log := .took ca.no ret rep :: s.log }
  | .filled k _ => some (s.broadcast k)

/-- The start of `got_pdu`. -/
def gotPdu (s : CallerSys κ ρ) (xid : ℕ) (ret : Int32) (rep : ρ) : Option (CallerSys κ ρ) :=
  match s.upcall with
  | .idle =>
    if s.locked then none
    else
      match s.calls xid with
      | none => some s
      | some k => some { s with locked := true, upcall := .found k xid ret rep }
  | _ => none

/-- One step. -/
def step (s : CallerSys κ ρ) : Act κ ρ → Option (CallerSys κ ρ)
  | .call k =>
    if (s.frames k).pc = .idle then some (s.setFrame k ⟨.enter, 0, false, 0, none, false, 0⟩)
    else none
  | .run k final => s.run k final
  | .expire k => if (s.frames k).pc = .waiting then some (s.goto k .timedout) else none
  | .wake k => if (s.frames k).pc = .waiting then some (s.goto k .woken) else none
  | .gotPdu xid ret rep => s.gotPdu xid ret rep
  | .poll => s.poll

/-! ## What a step can do -/

/-- The steps, by what they do to the mutexes. -/
inductive Moved (s : CallerSys κ ρ) : Act κ ρ → CallerSys κ ρ → Prop
  /-- Nothing changes. -/
  | idle (a : Act κ ρ) : Moved s a s
  | call (a : Act κ ρ) (k : κ) (hpc : (s.frames k).pc = .idle) :
      Moved s a (s.setFrame k ⟨.enter, 0, false, 0, none, false, 0⟩)
  | enter (k : κ) (final : Bool) (hpc : (s.frames k).pc = .enter) (hm : s.locked = false) :
      Moved s (.run k final) { s.setFrame k { s.frames k with
          pc := .top, xid := s.xid, no := s.count } with
        xid := (s.xid + 1) % 2 ^ 32
        calls := Function.update s.calls s.xid (some k)
        count := s.count + 1 }
  /-- In the loop, outside `ca.m`. -/
  | pass (a : Act κ ρ) (k : κ) (p : CallPc) (hin : (s.frames k).pc.inside = true)
      (hin' : p.inside = true) (hout : (s.frames k).pc.holds = false) (hout' : p.holds = false)
      (hp : p ≠ .waiting) :
      Moved s a (s.goto k p)
  | acquire (a : Act κ ρ) (k : κ) (p : CallPc) (hin : (s.frames k).pc.inside = true)
      (hin' : p.inside = true) (hholds : p.holds = true) (hfree : (s.frames k).locked = false) :
      Moved s a (s.gotoWith k p true)
  /-- Out of `ca.m`, to wait only if the call is not done. -/
  | release (a : Act κ ρ) (k : κ) (p : CallPc) (hin : (s.frames k).pc.inside = true)
      (hin' : p.inside = true) (hholds : (s.frames k).pc.holds = true) (hout : p.holds = false)
      (hp : p = .waiting → (s.frames k).done = false) : Moved s a (s.gotoWith k p false)
  | leave (a : Act κ ρ) (k : κ) (hpc : (s.frames k).pc = .leave) (hm : s.locked = false) :
      Moved s a { s.goto k .last with calls := Function.update s.calls (s.frames k).xid none }
  | last (a : Act κ ρ) (k : κ) (hpc : (s.frames k).pc = .last)
      (hfree : (s.frames k).locked = false) :
      Moved s a { s.goto k .idle with
        log := .returned (s.frames k).no (result (s.frames k)) (s.frames k).un :: s.log }
  | find (a : Act κ ρ) (k : κ) (xid : ℕ) (ret : Int32) (rep : ρ) (hm : s.locked = false)
      (hcalls : s.calls xid = some k) :
      Moved s a { s with locked := true, upcall := .found k xid ret rep }
  | skip (a : Act κ ρ) (k : κ) (xid : ℕ) (ret : Int32) (rep : ρ)
      (hup : s.upcall = .found k xid ret rep) (hfree : (s.frames k).locked = false)
      (hdone : (s.frames k).done = true) :
      Moved s a { s.gotoWith k (s.frames k).pc true with upcall := .filled k xid }
  | take (a : Act κ ρ) (k : κ) (xid : ℕ) (ret : Int32) (rep : ρ)
      (hup : s.upcall = .found k xid ret rep) (hfree : (s.frames k).locked = false)
      (hdone : (s.frames k).done = false) :
      Moved s a { s.setFrame k { s.frames k with
          done := true, intret := ret, un := some rep, locked := true } with
        upcall := .filled k xid, log := .took (s.frames k).no ret rep :: s.log }
  | broadcast (a : Act κ ρ) (k : κ) (xid : ℕ) (hup : s.upcall = .filled k xid) :
      Moved s a (s.broadcast k)

variable {s s' : CallerSys κ ρ}

theorem moved_of_run {k : κ} {final : Bool} (h : s.run k final = some s') :
    Moved s (.run k final) s' := by
  unfold run at h
  dsimp only at h
  cases hpc : (s.frames k).pc with
  | idle => simp [hpc] at h
  | waiting => simp [hpc] at h
  | enter =>
    simp only [hpc, Option.ite_none_left_eq_some, Bool.not_eq_true] at h
    obtain ⟨hm, rfl⟩ := h.imp_right Option.some.inj
    exact .enter k final hpc hm
  | top =>
    simp only [hpc] at h
    obtain rfl := Option.some.inj h
    refine .pass _ k _ (by rw [hpc]; rfl) ?_ (by rw [hpc]; rfl) ?_ ?_ <;> cases final <;> decide
  | lock =>
    simp only [hpc, Option.ite_none_left_eq_some, Bool.not_eq_true] at h
    obtain ⟨hfree, rfl⟩ := h.imp_right Option.some.inj
    exact .acquire _ k .test (by rw [hpc]; rfl) rfl rfl hfree
  | test =>
    simp only [hpc] at h
    obtain rfl := Option.some.inj h
    cases hdone : (s.frames k).done with
    | true => exact .release _ k _ (by rw [hpc]; rfl) rfl (by rw [hpc]; rfl) rfl (by simp)
    | false => exact .release _ k _ (by rw [hpc]; rfl) rfl (by rw [hpc]; rfl) rfl fun _ => hdone
  | woken =>
    simp only [hpc, Option.ite_none_left_eq_some, Bool.not_eq_true] at h
    obtain ⟨hfree, rfl⟩ := h.imp_right Option.some.inj
    exact .acquire _ k .test (by rw [hpc]; rfl) rfl rfl hfree
  | timedout =>
    simp only [hpc, Option.ite_none_left_eq_some, Bool.not_eq_true] at h
    obtain ⟨hfree, rfl⟩ := h.imp_right Option.some.inj
    exact .acquire _ k .expired (by rw [hpc]; rfl) rfl rfl hfree
  | expired =>
    simp only [hpc] at h
    obtain rfl := Option.some.inj h
    cases (s.frames k).done with
    | true => exact .release _ k _ (by rw [hpc]; rfl) rfl (by rw [hpc]; rfl) rfl (by simp)
    | false => exact .release _ k _ (by rw [hpc]; rfl) rfl (by rw [hpc]; rfl) rfl (by simp)
  | leave =>
    simp only [hpc, Option.ite_none_left_eq_some, Bool.not_eq_true] at h
    obtain ⟨hm, rfl⟩ := h.imp_right Option.some.inj
    exact .leave _ k hpc hm
  | last =>
    simp only [hpc, Option.ite_none_left_eq_some, Bool.not_eq_true] at h
    obtain ⟨hfree, rfl⟩ := h.imp_right Option.some.inj
    exact .last _ k hpc hfree

theorem moved_of_poll (h : s.poll = some s') : Moved s .poll s' := by
  unfold poll at h
  split at h
  · cases h
  · rename_i k xid ret rep hup
    simp only [Option.ite_none_left_eq_some, Bool.not_eq_true] at h
    obtain ⟨hfree, h⟩ := h
    split at h
    · rename_i hdone
      obtain rfl := Option.some.inj h
      exact .skip _ k xid ret rep hup hfree hdone
    · rename_i hdone
      obtain rfl := Option.some.inj h
      exact .take _ k xid ret rep hup hfree (Bool.eq_false_of_not_eq_true hdone)
  · rename_i k xid hup
    obtain rfl := Option.some.inj h
    exact .broadcast _ k xid hup

theorem moved_of_gotPdu {xid : ℕ} {ret : Int32} {rep : ρ} (h : s.gotPdu xid ret rep = some s') :
    Moved s (.gotPdu xid ret rep) s' := by
  unfold gotPdu at h
  split at h
  · simp only [Option.ite_none_left_eq_some, Bool.not_eq_true] at h
    obtain ⟨hm, h⟩ := h
    split at h
    · obtain rfl := Option.some.inj h
      exact .idle _
    · rename_i k hcalls
      obtain rfl := Option.some.inj h
      exact .find _ k xid ret rep hm hcalls
  · cases h

/-- **Every step is one of these.** -/
theorem moved_of_step {a : Act κ ρ} (h : s.step a = some s') : Moved s a s' := by
  cases a with
  | call k =>
    rw [step, Option.ite_none_right_eq_some] at h
    obtain ⟨hpc, rfl⟩ := h.imp_right Option.some.inj
    exact .call _ k hpc
  | run k final => exact moved_of_run h
  | expire k =>
    rw [step, Option.ite_none_right_eq_some] at h
    obtain ⟨hpc, rfl⟩ := h.imp_right Option.some.inj
    exact .pass _ k .timedout (by rw [hpc]; rfl) rfl (by rw [hpc]; rfl) rfl (by decide)
  | wake k =>
    rw [step, Option.ite_none_right_eq_some] at h
    obtain ⟨hpc, rfl⟩ := h.imp_right Option.some.inj
    exact .pass _ k .woken (by rw [hpc]; rfl) rfl (by rw [hpc]; rfl) rfl (by decide)
  | gotPdu xid ret rep => exact moved_of_gotPdu h
  | poll => exact moved_of_poll h

end CallerSys

/-! ## The mutexes -/

section

variable {κ ρ : Type}

/-- The poll thread has a pointer to the caller `x` of the thread. -/
def UpcallPc.Holds (u : UpcallPc κ ρ) (k : κ) (x : ℕ) : Prop :=
  (∃ ret rep, u = .found k x ret rep) ∨ u = .filled k x

/-- It is in the mutex of the thread's caller. -/
def UpcallPc.fills : UpcallPc κ ρ → κ → Prop
  | .filled j _, k => j = k
  | _, _ => False

/-- Who is in the mutex of a caller, with the poll thread at `u`. -/
structure Held (u : UpcallPc κ ρ) (k : κ) (ca : Frame ρ) : Prop where
  owned : ca.locked = true ↔ ca.pc.holds = true ∨ u.fills k
  apart : u.fills k → ca.pc.holds = false
  /-- A call that is done sleeps only until the broadcast. -/
  heard : ca.pc = .waiting → ca.done = true → u.fills k

/-- Who is in which mutex, and whose caller is in `calls_`. -/
structure Locks (s : CallerSys κ ρ) : Prop where
  mutex : s.locked = true ↔ s.upcall ≠ .idle
  pointed : ∀ k x, s.upcall.Holds k x → s.calls x = some k
  listed : ∀ k x, s.calls x = some k ↔
    (s.frames k).pc.inside = true ∧ (s.frames k).xid = x
  held : ∀ k, Held s.upcall k (s.frames k)

variable {s s' : CallerSys κ ρ} {k : κ} {ca : Frame ρ}

/-- A thread that is not in the mutex of its caller, and will not be. -/
theorem Held.pass {u : UpcallPc κ ρ} (h : Held u k ca) (hout : ca.pc.holds = false) {p : CallPc}
    (hout' : p.holds = false) (hp : p ≠ .waiting) : Held u k { ca with pc := p } where
  owned := by rw [h.owned, hout, hout']
  apart _ := hout'
  heard hw := absurd hw hp

/-- One for which the poll thread is not in the mutex. -/
theorem held_of_not_fills {u : UpcallPc κ ρ} (hno : ¬ u.fills k)
    (howned : ca.locked = ca.pc.holds) (hheard : ca.pc = .waiting → ca.done = false) :
    Held u k ca where
  owned := by rw [howned, or_iff_left hno]
  apart hf := absurd hf hno
  heard hw hd := by
    rw [hheard hw] at hd
    cases hd

theorem Held.not_fills {u : UpcallPc κ ρ} (h : Held u k ca) (hfree : ca.locked = false) :
    ¬ u.fills k := by
  intro hf
  rw [h.owned.2 (.inr hf)] at hfree
  cases hfree

theorem Held.locked_eq {u : UpcallPc κ ρ} (h : Held u k ca) (hno : ¬ u.fills k) :
    ca.locked = ca.pc.holds := by
  have howned := h.owned
  rw [or_iff_left hno] at howned
  exact Bool.eq_iff_iff.2 howned

theorem Locks.upcall_eq_idle (h : Locks s) (hm : s.locked = false) : s.upcall = .idle := by
  by_contra hup
  rw [h.mutex.2 hup] at hm
  cases hm

/-- The poll thread has no pointer where `m_` is free. -/
theorem Locks.not_holds (h : Locks s) (hm : s.locked = false) (k : κ) (x : ℕ) :
    ¬ s.upcall.Holds k x := by
  rw [h.upcall_eq_idle hm]
  simp [UpcallPc.Holds]

theorem Locks.not_fills (h : Locks s) (hm : s.locked = false) (k : κ) : ¬ s.upcall.fills k := by
  rw [h.upcall_eq_idle hm]
  exact id

/-- A caller that the poll thread has a pointer to is on the stack of a
call that has not left. -/
theorem Locks.inside_of_holds (h : Locks s) {x : ℕ} (hp : s.upcall.Holds k x) :
    (s.frames k).pc.inside = true ∧ (s.frames k).xid = x :=
  (h.listed k x).1 (h.pointed k x hp)

theorem Locks.not_fills_of_idle (h : Locks s) (hpc : (s.frames k).pc = .idle) :
    ¬ s.upcall.fills k := by
  intro hf
  cases hup : s.upcall with
  | filled j x =>
    rw [hup] at hf
    obtain rfl : j = k := hf
    have hin := (h.inside_of_holds (.inr hup)).1
    rw [hpc] at hin
    cases hin
  | _ =>
    rw [hup] at hf
    exact hf

variable [DecidableEq κ]

/-- A step of one thread that leaves `calls_` and the poll thread alone. -/
theorem Locks.setFrame (h : Locks s) (hin : ca.pc.inside = (s.frames k).pc.inside)
    (hxid : ca.pc.inside = true → ca.xid = (s.frames k).xid) (hheld : Held s.upcall k ca) :
    Locks (s.setFrame k ca) where
  mutex := h.mutex
  pointed := h.pointed
  listed := (Function.forall_update_iff s.frames fun j (ca : Frame ρ) =>
      ∀ x, s.calls x = some j ↔ ca.pc.inside = true ∧ ca.xid = x).2 <| by
    refine ⟨fun x => ?_, fun j _ => h.listed j⟩
    rw [h.listed k x, hin]
    refine and_congr_right fun hins => ?_
    rw [hxid (hin ▸ hins)]
  held := (Function.forall_update_iff s.frames fun j (ca : Frame ρ) => Held s.upcall j ca).2
    ⟨hheld, fun j _ => h.held j⟩

/-- A call enters `calls_` under a number that nobody there has. -/
theorem Locks.enter (h : Locks s) (hpc : (s.frames k).pc = .enter) (hm : s.locked = false)
    (hfresh : s.calls s.xid = none) :
    Locks { s.setFrame k { s.frames k with pc := .top, xid := s.xid, no := s.count } with
      xid := (s.xid + 1) % 2 ^ 32
      calls := Function.update s.calls s.xid (some k)
      count := s.count + 1 } where
  mutex := h.mutex
  pointed j x hp := absurd hp (h.not_holds hm j x)
  listed j x := by
    by_cases hj : j = k
    · subst hj
      simp only [CallerSys.setFrame, Function.update_self]
      by_cases hx : x = s.xid
      · subst hx
        simp [CallPc.inside]
      · rw [Function.update_of_ne hx, h.listed j x, hpc]
        simp [CallPc.inside, Ne.symm hx]
    · simp only [CallerSys.setFrame, Function.update_of_ne hj]
      rw [← h.listed j x]
      by_cases hx : x = s.xid
      · subst hx
        rw [Function.update_self, hfresh]
        simp [Ne.symm hj]
      · rw [Function.update_of_ne hx]
  held := by
    have hlocked := (h.held k).locked_eq (h.not_fills hm k)
    rw [hpc] at hlocked
    exact (Function.forall_update_iff s.frames fun j (ca : Frame ρ) => Held s.upcall j ca).2
      ⟨held_of_not_fills (h.not_fills hm k) hlocked (fun hw => by cases hw), fun j _ => h.held j⟩

/-- A call leaves `calls_`, where the poll thread is in no mutex. -/
theorem Locks.leave (h : Locks s) (hpc : (s.frames k).pc = .leave) (hm : s.locked = false) :
    Locks { s.goto k .last with calls := Function.update s.calls (s.frames k).xid none } where
  mutex := h.mutex
  pointed j x hp := absurd hp (h.not_holds hm j x)
  listed j x := by
    have hk : s.calls (s.frames k).xid = some k := (h.listed k _).2 ⟨by rw [hpc]; rfl, rfl⟩
    by_cases hj : j = k
    · subst hj
      simp only [CallerSys.goto, CallerSys.setFrame, Function.update_self]
      by_cases hx : x = (s.frames j).xid
      · subst hx
        simp [CallPc.inside]
      · rw [Function.update_of_ne hx, h.listed j x]
        simp [CallPc.inside, Ne.symm hx]
    · simp only [CallerSys.goto, CallerSys.setFrame, Function.update_of_ne hj]
      rw [← h.listed j x]
      by_cases hx : x = (s.frames k).xid
      · subst hx
        rw [Function.update_self, hk]
        simp [Ne.symm hj]
      · rw [Function.update_of_ne hx]
  held := (Function.forall_update_iff s.frames fun j (ca : Frame ρ) => Held s.upcall j ca).2
    ⟨(h.held k).pass (p := .last) (by rw [hpc]; rfl) rfl (by decide), fun j _ => h.held j⟩

/-- The poll thread obtains the caller's mutex, and the call is done. -/
theorem Locks.fill (h : Locks s) (ca : Frame ρ) {x : ℕ} {ret : Int32} {rep : ρ}
    (hup : s.upcall = .found k x ret rep) (hfree : (s.frames k).locked = false)
    (hin : ca.pc = (s.frames k).pc) (hx : ca.xid = (s.frames k).xid) (hlocked : ca.locked = true)
    {log : List (CallEvent ρ)} :
    Locks { s.setFrame k ca with upcall := .filled k x, log := log } where
  mutex := by
    simp only [ne_eq, reduceCtorEq, not_false_eq_true, iff_true]
    exact h.mutex.2 (by rw [hup]; simp)
  pointed j y hp := by
    rcases hp with ⟨_, _, hp⟩ | hp
    · cases hp
    · cases hp
      exact h.pointed k x (.inl ⟨ret, rep, hup⟩)
  listed := (Function.forall_update_iff s.frames fun j (ca : Frame ρ) =>
      ∀ x, s.calls x = some j ↔ ca.pc.inside = true ∧ ca.xid = x).2 <| by
    rw [hin, hx]
    exact ⟨h.listed k, fun j _ => h.listed j⟩
  held := (Function.forall_update_iff s.frames fun j (ca : Frame ρ) =>
      Held (.filled k x) j ca).2 <| by
    have hout : (s.frames k).pc.holds = false := by
      refine Bool.eq_false_of_not_eq_true fun hholds => ?_
      rw [(h.held k).owned.2 (.inl hholds)] at hfree
      cases hfree
    refine ⟨⟨?_, fun _ => hin ▸ hout, fun _ _ => rfl⟩, fun j hj => ?_⟩
    · rw [hlocked]
      exact iff_of_true rfl (.inr rfl)
    · -- it was in no caller's mutex before
      have hno : ¬ s.upcall.fills j := by
        rw [hup]
        exact id
      refine held_of_not_fills (Ne.symm hj) ((h.held j).locked_eq hno) fun hw => ?_
      exact Bool.eq_false_of_not_eq_true fun hd => hno ((h.held j).heard hw hd)

/-- The call is woken, and both mutexes are free again. -/
theorem Locks.broadcast (h : Locks s) {x : ℕ} (hup : s.upcall = .filled k x) :
    Locks (s.broadcast k) where
  mutex := by simp [CallerSys.broadcast]
  pointed j y hp := by
    rcases hp with ⟨_, _, hp⟩ | hp <;> cases hp
  listed := (Function.forall_update_iff s.frames fun j (ca : Frame ρ) =>
      ∀ x, s.calls x = some j ↔ ca.pc.inside = true ∧ ca.xid = x).2 <| by
    refine ⟨fun x => ?_, fun j _ => h.listed j⟩
    rw [h.listed k x]
    split
    · rename_i hw
      rw [hw]
      rfl
    · rfl
  held := (Function.forall_update_iff s.frames fun j (ca : Frame ρ) => Held .idle j ca).2 <| by
    refine ⟨held_of_not_fills id ?_ ?_, fun j hj => ?_⟩
    · have hout := (h.held k).apart (by rw [hup]; rfl)
      split
      · rfl
      · exact hout.symm
    · split
      · exact fun hw => by cases hw
      · rename_i hw
        exact fun hw' => absurd hw' hw
    · have hno : ¬ s.upcall.fills j := by
        rw [hup]
        exact Ne.symm hj
      refine held_of_not_fills id ((h.held j).locked_eq hno) fun hw => ?_
      exact Bool.eq_false_of_not_eq_true fun hd => hno ((h.held j).heard hw hd)

/-- No call in progress has the number that the next one gets. -/
def FreshXid (s : CallerSys κ ρ) : CallerSys.Act κ ρ → Prop
  | .run k _ => (s.frames k).pc = .enter → s.calls s.xid = none
  | _ => True

instance (s : CallerSys κ ρ) : (a : CallerSys.Act κ ρ) → Decidable (FreshXid s a)
  | .run _ _ => inferInstanceAs (Decidable (_ → _))
  | .call _ => isTrue trivial
  | .expire _ => isTrue trivial
  | .wake _ => isTrue trivial
  | .gotPdu _ _ _ => isTrue trivial
  | .poll => isTrue trivial

/-- **One step.** -/
theorem Locks.step (h : Locks s) {a : CallerSys.Act κ ρ} (hfresh : FreshXid s a)
    (hm : CallerSys.Moved s a s') : Locks s' := by
  cases hm with
  | idle => exact h
  | call _ k hpc =>
    exact h.setFrame (by rw [hpc]; rfl) (fun hin => by cases hin)
      (held_of_not_fills (h.not_fills_of_idle hpc) rfl fun hw => by cases hw)
  | enter k final hpc hm => exact h.enter hpc hm (hfresh hpc)
  | pass _ k p hin hin' hout hout' hp =>
    exact h.setFrame (hin'.trans hin.symm) (fun _ => rfl) ((h.held k).pass hout hout' hp)
  | acquire _ k p hin hin' hholds hfree =>
    have hno := (h.held k).not_fills hfree
    refine h.setFrame (hin'.trans hin.symm) (fun _ => rfl)
      (held_of_not_fills hno hholds.symm fun hw => ?_)
    obtain rfl : p = .waiting := hw
    cases hholds
  | release _ k p hin hin' hholds hout hp =>
    have hno : ¬ s.upcall.fills k := by
      intro hf
      rw [(h.held k).apart hf] at hholds
      cases hholds
    exact h.setFrame (hin'.trans hin.symm) (fun _ => rfl) (held_of_not_fills hno hout.symm hp)
  | leave _ k hpc hm => exact h.leave hpc hm
  | last _ k hpc hfree =>
    have hno := (h.held k).not_fills hfree
    have hk : Locks (s.goto k .idle) := h.setFrame (by rw [hpc]; rfl) (fun hin => by cases hin)
      (held_of_not_fills hno hfree fun hw => by cases hw)
    exact ⟨hk.mutex, hk.pointed, hk.listed, hk.held⟩
  | find _ k x ret rep hm hcalls =>
    refine ⟨iff_of_true rfl (by simp), fun j y hp => ?_, h.listed, fun j => ?_⟩
    · rcases hp with ⟨_, _, hp⟩ | hp
      · cases hp
        exact hcalls
      · cases hp
    · refine held_of_not_fills id ((h.held j).locked_eq (h.not_fills hm j)) fun hw => ?_
      exact Bool.eq_false_of_not_eq_true fun hd => h.not_fills hm j ((h.held j).heard hw hd)
  | skip _ k x ret rep hup hfree hdone =>
    exact h.fill { s.frames k with locked := true } hup hfree rfl rfl rfl
  | take _ k x ret rep hup hfree hdone =>
    exact h.fill { s.frames k with done := true, intret := ret, un := some rep, locked := true } hup
      hfree rfl rfl rfl
  | broadcast _ k x hup => exact h.broadcast hup

end

/-! ## The replies -/

/-- The thread is in a call, past the start. -/
def CallPc.live : CallPc → Bool
  | .idle => false
  | .enter => false
  | _ => true

section

variable {κ ρ : Type}

/-- What was taken in for the call `no`, if the event is that. -/
def CallEvent.takenFor (no : ℕ) : CallEvent ρ → Option (Int32 × Option ρ)
  | .took n ret rep => if n = no then some (ret, some rep) else none
  | .returned _ _ _ => none

/-- The replies that were taken in for the call `no`. -/
def taken (no : ℕ) (log : List (CallEvent ρ)) : List (Int32 × Option ρ) :=
  log.filterMap (CallEvent.takenFor no)

/-- What the caller holds, if it is done. -/
def Frame.answer (ca : Frame ρ) : List (Int32 × Option ρ) :=
  if ca.done then [(ca.intret, ca.un)] else []

/-- A call returned the one reply taken in for it, or timed out, and there
was none. -/
def ReturnsTaken (log : List (CallEvent ρ)) : Prop :=
  ∀ no ret un, .returned no ret un ∈ log →
    taken no log = [(ret, un)] ∨ taken no log = [] ∧ ret = timeoutFailure

/-- The callers and the record agree. -/
structure Answers (s : CallerSys κ ρ) : Prop where
  early : ∀ k, (s.frames k).pc = .enter → (s.frames k).done = false
  numbered : ∀ k, (s.frames k).pc.live = true → (s.frames k).no < s.count
  distinct : ∀ j k, (s.frames j).pc.live = true → (s.frames k).pc.live = true →
    (s.frames j).no = (s.frames k).no → j = k
  fresh : ∀ no, s.count ≤ no → taken no s.log = []
  answers : ∀ k, (s.frames k).pc.live = true → taken (s.frames k).no s.log = (s.frames k).answer
  /-- A call that has returned is not in progress. -/
  gone : ∀ no ret un, .returned no ret un ∈ s.log →
    no < s.count ∧ ∀ k, (s.frames k).pc.live = true → (s.frames k).no ≠ no
  returned : ReturnsTaken s.log

theorem CallPc.live_of_inside {p : CallPc} (h : p.inside = true) : p.live = true := by
  cases p with
  | idle => cases h
  | enter => cases h
  | _ => rfl

@[simp] theorem taken_returned (no n : ℕ) (ret : Int32) (un : Option ρ)
    (log : List (CallEvent ρ)) : taken no (.returned n ret un :: log) = taken no log := rfl

theorem taken_took_of_ne {no n : ℕ} (h : n ≠ no) (ret : Int32) (rep : ρ)
    (log : List (CallEvent ρ)) : taken no (.took n ret rep :: log) = taken no log := by
  simp [taken, CallEvent.takenFor, h]

theorem taken_took (no : ℕ) (ret : Int32) (rep : ρ) (log : List (CallEvent ρ)) :
    taken no (.took no ret rep :: log) = (ret, some rep) :: taken no log := by
  simp [taken, CallEvent.takenFor]

variable [DecidableEq κ] {s s' : CallerSys κ ρ} {k : κ} {ca : Frame ρ}

/-- A step of one thread after which its caller holds what it did. -/
theorem Answers.frame (h : Answers s) (hframes : s'.frames = Function.update s.frames k ca)
    (hcount : s'.count = s.count) (hlog : s'.log = s.log)
    (hlive : ca.pc.live = true → (s.frames k).pc.live = true)
    (hno : ca.pc.live = true → ca.no = (s.frames k).no)
    (hearly : ca.pc = .enter → ca.done = false)
    (hanswer : ca.pc.live = true → ca.answer = (s.frames k).answer) : Answers s' where
  early := by
    rw [hframes]
    exact (Function.forall_update_iff s.frames fun _ (ca : Frame ρ) =>
      ca.pc = .enter → ca.done = false).2 ⟨hearly, fun j _ => h.early j⟩
  numbered := by
    rw [hframes, hcount]
    exact (Function.forall_update_iff s.frames fun _ (ca : Frame ρ) =>
      ca.pc.live = true → ca.no < s.count).2
        ⟨fun hl => hno hl ▸ h.numbered k (hlive hl), fun j _ => h.numbered j⟩
  distinct := by
    have hwas : ∀ j, (s'.frames j).pc.live = true →
        (s.frames j).pc.live = true ∧ (s'.frames j).no = (s.frames j).no := by
      rw [hframes]
      exact (Function.forall_update_iff s.frames fun j (ca : Frame ρ) => ca.pc.live = true →
        (s.frames j).pc.live = true ∧ ca.no = (s.frames j).no).2
          ⟨fun hl => ⟨hlive hl, hno hl⟩, fun _ _ hl => ⟨hl, rfl⟩⟩
    intro i j hi hj heq
    exact h.distinct i j (hwas i hi).1 (hwas j hj).1
      ((hwas i hi).2.symm.trans (heq.trans (hwas j hj).2))
  fresh := by
    rw [hcount, hlog]
    exact h.fresh
  answers := by
    rw [hframes, hlog]
    refine (Function.forall_update_iff s.frames fun _ (ca : Frame ρ) =>
      ca.pc.live = true → taken ca.no s.log = ca.answer).2 ⟨fun hl => ?_, fun j _ => h.answers j⟩
    rw [hno hl, hanswer hl]
    exact h.answers k (hlive hl)
  gone := by
    rw [hframes, hcount, hlog]
    intro no ret un hmem
    obtain ⟨hlt, hgone⟩ := h.gone no ret un hmem
    refine ⟨hlt, (Function.forall_update_iff s.frames fun _ (ca : Frame ρ) =>
      ca.pc.live = true → ca.no ≠ no).2 ⟨fun hl => ?_, fun j _ => hgone j⟩⟩
    rw [hno hl]
    exact hgone k (hlive hl)
  returned := hlog ▸ h.returned

/-- A call gets its number. -/
theorem Answers.enter (h : Answers s) (hpc : (s.frames k).pc = .enter) :
    Answers { s.setFrame k { s.frames k with pc := .top, xid := s.xid, no := s.count } with
      xid := (s.xid + 1) % 2 ^ 32
      calls := Function.update s.calls s.xid (some k)
      count := s.count + 1 } where
  early := (Function.forall_update_iff s.frames fun _ (ca : Frame ρ) =>
    ca.pc = .enter → ca.done = false).2 ⟨(fun hp => by cases hp), fun j _ => h.early j⟩
  numbered := (Function.forall_update_iff s.frames fun _ (ca : Frame ρ) =>
    ca.pc.live = true → ca.no < s.count + 1).2
      ⟨fun _ => Nat.lt_succ_self _, fun j _ hl => Nat.lt_succ_of_lt (h.numbered j hl)⟩
  distinct i j hi hj heq := by
    -- the others have smaller numbers
    by_cases hik : i = k
    · subst hik
      by_cases hji : j = i
      · exact hji.symm
      · simp only [CallerSys.setFrame, Function.update_self, Function.update_of_ne hji] at hj heq
        have := h.numbered j hj
        omega
    · by_cases hjk : j = k
      · subst hjk
        simp only [CallerSys.setFrame, Function.update_self, Function.update_of_ne hik] at hi heq
        have := h.numbered i hi
        omega
      · simp only [CallerSys.setFrame, Function.update_of_ne hik, Function.update_of_ne hjk]
          at hi hj heq
        exact h.distinct i j hi hj heq
  fresh no hle := h.fresh no (Nat.le_of_succ_le hle)
  answers := (Function.forall_update_iff s.frames fun _ (ca : Frame ρ) =>
      ca.pc.live = true → taken ca.no s.log = ca.answer).2 <| by
    refine ⟨fun _ => ?_, fun j _ => h.answers j⟩
    rw [h.fresh s.count le_rfl, Frame.answer, h.early k hpc]
    rfl
  gone no ret un hmem := by
    obtain ⟨hlt, hgone⟩ := h.gone no ret un hmem
    exact ⟨Nat.lt_succ_of_lt hlt, (Function.forall_update_iff s.frames fun _ (ca : Frame ρ) =>
      ca.pc.live = true → ca.no ≠ no).2 ⟨fun _ => Nat.ne_of_gt hlt, fun j _ => hgone j⟩⟩
  returned := h.returned

/-- A call returns. -/
theorem Answers.last (h : Answers s) (hpc : (s.frames k).pc = .last) :
    Answers { s.goto k .idle with
      log :=
        .returned (s.frames k).no (CallerSys.result (s.frames k)) (s.frames k).un :: s.log } := by
  have hlive : (s.frames k).pc.live = true := by
    rw [hpc]
    rfl
  have hk : Answers (s.goto k .idle) :=
    h.frame rfl rfl rfl (fun hl => by cases hl) (fun hl => by cases hl) (fun hp => by cases hp)
      fun hl => by cases hl
  refine ⟨hk.early, hk.numbered, hk.distinct, hk.fresh, hk.answers, ?_, ?_⟩
  · intro no ret un hmem
    rcases List.mem_cons.1 hmem with heq | hmem
    · cases heq
      refine ⟨h.numbered k hlive, (Function.forall_update_iff s.frames fun _ (ca : Frame ρ) =>
        ca.pc.live = true → ca.no ≠ (s.frames k).no).2 ⟨(fun hl => by cases hl), fun j hj hl => ?_⟩⟩
      exact fun heq => hj (h.distinct j k hl hlive heq)
    · exact hk.gone no ret un hmem
  · intro no ret un hmem
    rw [taken_returned]
    rcases List.mem_cons.1 hmem with heq | hmem
    · cases heq
      rw [h.answers k hlive, Frame.answer, CallerSys.result]
      cases (s.frames k).done with
      | true => exact .inl rfl
      | false => exact .inr ⟨rfl, rfl⟩
    · exact h.returned no ret un hmem

/-- A reply is taken in, for a call in progress that had none. -/
theorem Answers.take (h : Answers s) (hlive : (s.frames k).pc.live = true)
    (hdone : (s.frames k).done = false) (x : ℕ) (ret : Int32) (rep : ρ) :
    Answers { s.setFrame k { s.frames k with
        done := true, intret := ret, un := some rep, locked := true } with
      upcall := .filled k x, log := .took (s.frames k).no ret rep :: s.log } where
  early := (Function.forall_update_iff s.frames fun _ (ca : Frame ρ) =>
      ca.pc = .enter → ca.done = false).2 <| by
    refine ⟨fun hp => ?_, fun j _ => h.early j⟩
    rw [show (s.frames k).pc = .enter from hp] at hlive
    cases hlive
  numbered := (Function.forall_update_iff s.frames fun _ (ca : Frame ρ) =>
    ca.pc.live = true → ca.no < s.count).2 ⟨h.numbered k, fun j _ => h.numbered j⟩
  distinct i j hi hj heq := by
    have hwas : ∀ j, ((Function.update s.frames k { s.frames k with
        done := true, intret := ret, un := some rep, locked := true }) j).pc = (s.frames j).pc ∧
        ((Function.update s.frames k { s.frames k with
          done := true, intret := ret, un := some rep, locked := true }) j).no = (s.frames j).no :=
      (Function.forall_update_iff s.frames fun j (ca : Frame ρ) =>
        ca.pc = (s.frames j).pc ∧ ca.no = (s.frames j).no).2
          ⟨⟨rfl, rfl⟩, fun _ _ => ⟨rfl, rfl⟩⟩
    simp only [CallerSys.setFrame, (hwas i).1, (hwas i).2, (hwas j).1, (hwas j).2] at hi hj heq
    exact h.distinct i j hi hj heq
  fresh no hle := by
    have hlt := h.numbered k hlive
    have hle : s.count ≤ no := hle
    rw [taken_took_of_ne (by omega)]
    exact h.fresh no hle
  answers := (Function.forall_update_iff s.frames fun _ (ca : Frame ρ) => ca.pc.live = true →
      taken ca.no (.took (s.frames k).no ret rep :: s.log) = ca.answer).2 <| by
    refine ⟨fun _ => ?_, fun j hj hl => ?_⟩
    · rw [taken_took, h.answers k hlive, Frame.answer, hdone]
      rfl
    · rw [taken_took_of_ne fun heq => hj (h.distinct j k hl hlive heq.symm)]
      exact h.answers j hl
  gone no r un hmem := by
    obtain ⟨hlt, hgone⟩ := h.gone no r un ((List.mem_cons.1 hmem).resolve_left (by simp))
    exact ⟨hlt, (Function.forall_update_iff s.frames fun _ (ca : Frame ρ) =>
      ca.pc.live = true → ca.no ≠ no).2 ⟨hgone k, fun j _ => hgone j⟩⟩
  returned no r un hmem := by
    have hmem := (List.mem_cons.1 hmem).resolve_left (by simp)
    rw [taken_took_of_ne ((h.gone no r un hmem).2 k hlive)]
    exact h.returned no r un hmem

/-- A step of a call in progress that keeps what its caller holds. -/
theorem Answers.goto (h : Answers s) (hframes : s'.frames = Function.update s.frames k ca)
    (hcount : s'.count = s.count) (hlog : s'.log = s.log)
    (hlive : (s.frames k).pc.live = true) (hpc : ca.pc ≠ .enter)
    (hsame : ca.no = (s.frames k).no ∧ ca.answer = (s.frames k).answer) : Answers s' :=
  h.frame hframes hcount hlog (fun _ => hlive) (fun _ => hsame.1) (fun hp => absurd hp hpc)
    fun _ => hsame.2

theorem CallPc.ne_enter_of_live {p : CallPc} (h : p.live = true) : p ≠ .enter := by
  rintro rfl
  cases h

/-- **One step.** -/
theorem Answers.step (h : Answers s) (hl : Locks s) {a : CallerSys.Act κ ρ}
    (hm : CallerSys.Moved s a s') : Answers s' := by
  -- the poll thread has a pointer to a call in progress
  have hpointed : ∀ {k : κ} {x : ℕ}, s.upcall.Holds k x → (s.frames k).pc.live = true :=
    fun hp => CallPc.live_of_inside (hl.inside_of_holds hp).1
  cases hm with
  | idle => exact h
  | call _ k hpc =>
    exact h.frame rfl rfl rfl (fun hl => by cases hl) (fun hl => by cases hl) (fun _ => rfl)
      fun hl => by cases hl
  | enter k final hpc hm => exact h.enter hpc
  | pass _ k p hin hin' =>
    exact h.goto rfl rfl rfl (CallPc.live_of_inside hin)
      (CallPc.ne_enter_of_live (CallPc.live_of_inside hin')) ⟨rfl, rfl⟩
  | acquire _ k p hin hin' =>
    exact h.goto rfl rfl rfl (CallPc.live_of_inside hin)
      (CallPc.ne_enter_of_live (CallPc.live_of_inside hin')) ⟨rfl, rfl⟩
  | release _ k p hin hin' =>
    exact h.goto rfl rfl rfl (CallPc.live_of_inside hin)
      (CallPc.ne_enter_of_live (CallPc.live_of_inside hin')) ⟨rfl, rfl⟩
  | leave _ k hpc hm =>
    exact h.goto rfl rfl rfl (by rw [hpc]; rfl) (fun hp => by cases hp) ⟨rfl, rfl⟩
  | last _ k hpc => exact h.last hpc
  | find => exact ⟨h.early, h.numbered, h.distinct, h.fresh, h.answers, h.gone, h.returned⟩
  | skip _ k x ret rep hup =>
    have hlive := hpointed (.inl ⟨ret, rep, hup⟩)
    exact h.goto rfl rfl rfl hlive (CallPc.ne_enter_of_live hlive) ⟨rfl, rfl⟩
  | take _ k x ret rep hup hfree hdone =>
    exact h.take (hpointed (.inl ⟨ret, rep, hup⟩)) hdone x ret rep
  | broadcast _ k x hup =>
    have hlive := hpointed (.inr hup)
    refine h.goto rfl rfl rfl hlive ?_ ⟨rfl, rfl⟩
    dsimp only
    split
    · decide
    · exact CallPc.ne_enter_of_live hlive

end

/-! ## Nobody is stuck -/

section

variable {κ ρ : Type}

/-- How many steps a thread can take, at most, until it waits or returns. -/
def Frame.weight (ca : Frame ρ) : ℕ :=
  match ca.pc with
  | .idle => 0
  | .last => 1
  | .leave => 2
  | .enter => 10
  | .top => 9
  | .waiting => 5
  | .test => if ca.done then 3 else 6
  | .lock => if ca.done then 4 else 7
  | .woken => if ca.done then 4 else 7
  | .expired => if ca.done then 3 else 10
  | .timedout => if ca.done then 4 else 11

/-- The same of the poll thread. A broadcast gives the call it wakes two
steps more. -/
def UpcallPc.weight : UpcallPc κ ρ → ℕ
  | .idle => 0
  | .found _ _ _ _ => 5
  | .filled _ _ => 4

/-- The action is a step of a thread or the poll thread that is under way. -/
def CallerSys.Act.Goes : CallerSys.Act κ ρ → Prop
  | .run _ _ => True
  | .poll => True
  | _ => False

variable [Fintype κ]

def CallerSys.weight (s : CallerSys κ ρ) : ℕ :=
  ∑ k, (s.frames k).weight + s.upcall.weight

theorem Frame.weight_le (ca : Frame ρ) : ca.weight ≤ 11 := by
  unfold Frame.weight
  split <;> (try split) <;> omega

theorem CallerSys.weight_le (s : CallerSys κ ρ) : s.weight ≤ 11 * Fintype.card κ + 5 := by
  have hsum : ∑ k, (s.frames k).weight ≤ Fintype.card κ • 11 :=
    Finset.sum_le_card_nsmul _ _ 11 fun k _ => Frame.weight_le _
  have hup : s.upcall.weight ≤ 5 := by
    cases s.upcall with
    | idle => exact Nat.zero_le _
    | found => exact le_rfl
    | filled => exact Nat.le_succ 4
  rw [smul_eq_mul] at hsum
  unfold CallerSys.weight
  omega

variable [DecidableEq κ] {s s' : CallerSys κ ρ} {k : κ} {ca : Frame ρ}

omit [Fintype κ] in
/-- **Where nobody can go on**, the poll thread is done, and every thread
is in no call or waits for a reply. -/
theorem Locks.settled (h : Locks s) (hstuck : ∀ a : CallerSys.Act κ ρ, a.Goes → s.step a = none) :
    s.upcall = .idle ∧ ∀ k, (s.frames k).pc = .idle ∨
      (s.frames k).pc = .waiting ∧ (s.frames k).done = false := by
  have hpoll : s.poll = none := hstuck .poll trivial
  have hrun : ∀ k, s.run k false = none := fun k => hstuck (.run k false) trivial
  -- a thread in the mutex of its caller can go on
  have hout : ∀ k, (s.frames k).pc.holds = false := by
    intro k
    have hk := hrun k
    unfold CallerSys.run at hk
    cases hpc : (s.frames k).pc with
    | test => simp [hpc] at hk
    | expired => simp [hpc] at hk
    | _ => rfl
  have hidle : s.upcall = .idle := by
    unfold CallerSys.poll at hpoll
    split at hpoll
    · assumption
    · rename_i k xid ret rep hup
      have hno : ¬ s.upcall.fills k := by
        rw [hup]
        exact id
      have hfree := (h.held k).locked_eq hno
      rw [hout k] at hfree
      dsimp only at hpoll
      rw [hfree, if_neg Bool.false_ne_true] at hpoll
      split at hpoll <;> cases hpoll
    · cases hpoll
  have hm : s.locked = false := by
    refine Bool.eq_false_of_not_eq_true fun hm => ?_
    exact h.mutex.1 hm hidle
  refine ⟨hidle, fun k => ?_⟩
  have hfree : (s.frames k).locked = false :=
    ((h.held k).locked_eq (h.not_fills hm k)).trans (hout k)
  have hk := hrun k
  unfold CallerSys.run at hk
  cases hpc : (s.frames k).pc with
  | idle => exact .inl rfl
  | waiting =>
    refine .inr ⟨rfl, Bool.eq_false_of_not_eq_true fun hd => ?_⟩
    exact h.not_fills hm k ((h.held k).heard hpc hd)
  | _ => simp [hpc, hm, hfree] at hk

/-- What the callers of a client can rely on. -/
structure Tended (s : CallerSys κ ρ) : Prop where
  /-- A caller that the poll thread has a pointer to is on the stack of a
  call that has not left. -/
  onStack : ∀ k x, s.upcall.Holds k x → (s.frames k).pc.inside = true ∧ (s.frames k).xid = x
  /-- At the end of a call its mutex is free. -/
  free : ∀ k, (s.frames k).pc = .idle → (s.frames k).locked = false
  /-- A call that is done sleeps only until the broadcast. -/
  heard : ∀ k, (s.frames k).pc = .waiting → (s.frames k).done = true → s.upcall.fills k
  returned : ReturnsTaken s.log
  /-- What is under way comes to an end, -/
  ends : ∀ as t, (∀ a ∈ as, CallerSys.Act.Goes a) → exec CallerSys.step s as = some t →
    as.length ≤ 11 * Fintype.card κ + 5
  /-- and then all calls have returned or wait for a reply. -/
  settled : (∀ a : CallerSys.Act κ ρ, a.Goes → s.step a = none) →
    s.upcall = .idle ∧ ∀ k, (s.frames k).pc = .idle ∨
      (s.frames k).pc = .waiting ∧ (s.frames k).done = false

end

end Rpc

end Yfs
