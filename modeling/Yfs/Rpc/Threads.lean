import Yfs.Common.Program
import Yfs.Rpc.Remote

/-!
# Threads that make remote calls

A program that calls an object on a server does so through an `rpcc`: its
thread is in `call` of `rpc.h` until the call returns, and goes on with what
it returned. Here any number of such threads, each with a client of its
own, are there beside the system and the object. In an orderly run the
calls are to the threads what they would be on an object at hand, each
served at once (`threads_atomic`), for as long as no call fails: a call
that failed may still be served when the thread has gone on.
-/

namespace Yfs

open Common

namespace Rpc

variable {ι σ τ α : Type}

/-! ## Calls -/

/-- `rpc_const::bind_failure`. -/
def bindFailure : Int32 := -6

/-- What `rpcc::call` is called with. -/
structure RemoteCall where
  proc : UInt32
  /-- The types of the arguments. -/
  ts : List Ty
  args : Vals ts
  /-- `R`. -/
  ret : Ty

/-- What it returns, and what it assigned to `r`. -/
abbrev Answer (c : RemoteCall) : Type := Int32 × Option c.ret.Val

/-- What `call_m` returns when `call1` has, for a result of the type of
`c`. -/
def RemoteCall.answer (c : RemoteCall) (ca : Caller ι) : Answer c :=
  Sys.callResult { ca with q := { ca.q with ret := c.ret } }

/-- The call a request is for. -/
def Request.toCall (q : Request) : RemoteCall := ⟨q.proc, q.ts, q.args, q.ret⟩

/-- What a call returned, as the thread has it. -/
def resultOf (o : Op ι) (r : Res o) : Answer o.2.toCall := (r.1, some r.2)

/-- What a call does where the object is at hand. -/
inductive Performs (meths : Int32 → Option (Method σ τ)) :
    σ → (c : RemoteCall) → Answer c → σ → Prop
  | call (x : σ) (t : τ) (proc : UInt32) (m : Method σ τ) (args : Vals m.args)
      (hm : meths proc.toInt32 = some m) :
      Performs meths x ⟨proc, m.args, args, m.ret⟩
        ((m.meth x t args).1, some (m.meth x t args).2.1) (m.meth x t args).2.2

theorem performs_of_does {meths : Int32 → Option (Method σ τ)} (x : σ) (o : Op ι) (r : Res o)
    (x' : σ) (h : Does meths x o r x') : Performs meths x o.2.toCall (resultOf o r) x' := by
  cases h with
  | call t i xid proc m args srvNonce xidRep hm => exact .call x t proc m args hm

/-- A call of a method does what the method does. -/
theorem Performs.exists_run {meths : Int32 → Option (Method σ τ)} {x y : σ} {c : RemoteCall}
    {r : Answer c} (h : Performs meths x c r y) (m : Method σ τ) (args : Vals m.args)
    (hm : meths c.proc.toInt32 = some m) (hc : c = ⟨c.proc, m.args, args, m.ret⟩) :
    ∃ t, (hc ▸ r : Answer ⟨c.proc, m.args, args, m.ret⟩) =
      ((m.meth x t args).1, some (m.meth x t args).2.1) ∧ y = (m.meth x t args).2.2 := by
  cases h with
  | call t proc m' args' hm' =>
    obtain rfl : m' = m := Option.some.inj (hm'.symm.trans hm)
    obtain ⟨-, -, hargs, -⟩ := RemoteCall.mk.inj hc
    obtain rfl := eq_of_heq hargs
    exact ⟨t, rfl, rfl⟩

/-- The call has the types of the method. -/
def RemoteCall.Typed (meths : Int32 → Option (Method σ τ)) (c : RemoteCall) : Prop :=
  ∀ m, meths c.proc.toInt32 = some m → c.ts = m.args ∧ c.ret = m.ret

/-! ## The system -/

/-- The system with the object, and the threads. -/
structure ThreadSys (ι σ τ α : Type) where
  remote : Remote ι σ τ
  threads : ι → Prog RemoteCall Answer α
  /-- Some call returned without a result. -/
  failed : Bool

/-- In the beginning. -/
def ThreadSys.init (ps : ι → Prog RemoteCall Answer α) (x₀ : σ) : ThreadSys ι σ τ α :=
  ⟨.init x₀, ps, false⟩

/-- What can happen next. -/
inductive ThreadAct (ι σ τ : Type) where
  /-- A thread makes the call it has come to. -/
  | call (i : ι)
  /-- The call returns to the thread. -/
  | finish (i : ι) (xid : ℕ)
  /-- Anything else in the system. -/
  | net (a : RemoteAct ι σ τ)

/-- A call is made, or returns. -/
def Action.byThread {Ω : Type} : Action ι Ω → Bool
  | .call .. => true
  | .finish .. => true
  | _ => false

/-- The same, of an action with the object. -/
def RemoteAct.byThread (a : RemoteAct ι σ τ) : Bool := a.toAction.any Action.byThread

variable [DecidableEq ι]

/-- One step. A thread is in one call at a time, and `bind` has stored
what it got when it returns. -/
def ThreadSys.step (cfg : Config ι (σ × τ)) (reg : Int32 → Option (Method σ τ))
    (s : ThreadSys ι σ τ α) : ThreadAct ι σ τ → Option (ThreadSys ι σ τ α)
  | .call i =>
    match s.threads i with
    | .done _ => none
    | .call c next =>
      let cl := s.remote.sys.clients i
      if cl.calls.isEmpty = false ∨ cl.binds.isEmpty = false then none
      else if (c.proc ≠ bindProc ∧ cl.bindDone = false) ∨
          (c.proc = bindProc ∧ cl.bindDone = true) then
        some { s with
          threads := Function.update s.threads i (next (bindFailure, none)), failed := true }
      else
        (s.remote.step cfg reg (.net (.act
          (.call i (decide (c.proc = bindProc)) c.proc c.ts c.args c.ret)))).map
          fun r => { s with remote := r }
  | .finish i xid =>
    match s.threads i, Sys.findCall (s.remote.sys.clients i).calls xid with
    | .call c next, some ca =>
      (s.remote.step cfg reg (.net (.act (.finish i xid)))).map fun r =>
        { remote := r
          threads := Function.update s.threads i (next (c.answer ca))
          failed := s.failed || (c.answer ca).2.isNone }
    | _, _ => none
  | .net a =>
    if a.byThread then none else (s.remote.step cfg reg a).map fun r => { s with remote := r }

/-- The action is a call of the thread `i`. -/
def ThreadAct.isCallOf (i : ι) : ThreadAct ι σ τ → Bool
  | .call k => decide (k = i)
  | _ => false

/-- The step is an orderly one of the system. -/
def ThreadSys.Orderly (cfg : Config ι (σ × τ)) (s : ThreadSys ι σ τ α) : ThreadAct ι σ τ → Prop
  | .net a => s.remote.Orderly cfg a
  | _ => True

instance (cfg : Config ι (σ × τ)) (s : ThreadSys ι σ τ α) (a : ThreadAct ι σ τ) :
    Decidable (s.Orderly cfg a) :=
  match a with
  | .net a => inferInstanceAs (Decidable (s.remote.Orderly cfg a))
  | .call _ => isTrue trivial
  | .finish _ _ => isTrue trivial

/-! ## What a thread has done -/

variable {cfg : Config ι (σ × τ)} {reg : Int32 → Option (Method σ τ)} {x₀ : σ}
variable {ps : ι → Prog RemoteCall Answer α} {s s' : ThreadSys ι σ τ α}

/-- The requests of the calls of client `i` in progress. -/
def pending {Ω : Type} (s : Sys ι Ω) (i : ι) : List Request := (s.clients i).calls.map Caller.q

/-- What is seen of client `i`. -/
def seenOf {Ω : Type} (i : ι) (log : List (Event ι Ω)) : List (Seen (Op ι) Res) :=
  (history log).filter fun e => decide (e.op.1 = i)

theorem seenOf_called {Ω : Type} (i k : ι) (q : Request) (log : List (Event ι Ω)) :
    seenOf i (.called k q :: log) =
      if k = i then .invoked (k, q) :: seenOf i log else seenOf i log := by
  by_cases hk : k = i
  · rw [if_pos hk]
    exact List.filter_cons_of_pos (decide_eq_true hk)
  · rw [if_neg hk]
    exact List.filter_cons_of_neg (Bool.not_eq_true _ ▸ decide_eq_false hk)

theorem seenOf_returned {Ω : Type} (i : ι) (q : Request) (b : Int32) (v : q.ret.Val)
    (log : List (Event ι Ω)) :
    seenOf i (.returned i q b (some v) :: log) = .returned (i, q) (b, v) :: seenOf i log :=
  List.filter_cons_of_pos (decide_eq_true rfl)

theorem seenOf_returned_of_ne {Ω : Type} {i k : ι} (hk : k ≠ i) (q : Request) (b : Int32)
    (v : Option q.ret.Val) (log : List (Event ι Ω)) :
    seenOf i (.returned k q b v :: log) = seenOf i log := by
  cases v with
  | none => rfl
  | some v => exact List.filter_cons_of_neg (Bool.not_eq_true _ ▸ decide_eq_false hk)

/-- The thread `i` has made the calls `calls`, one after the other, and
waits for another one, or is between two. -/
structure InTurn (p : Prog RemoteCall Answer α) (s : ThreadSys ι σ τ α) (i : ι)
    (calls : List ((o : Op ι) × Res o)) : Prop where
  seen : seenOf i s.remote.sys.log =
    ((pending s.remote.sys i).map fun q => .invoked (i, q)) ++ exchanges calls
  one : (pending s.remote.sys i).length ≤ 1
  follows : p.Follows (calls.map (asked resultOf)) (s.threads i)
  waits : ∀ q ∈ pending s.remote.sys i, ∃ next, s.threads i = .call q.toCall next

theorem pending_setClient {Ω : Type} (s : Sys ι Ω) (k i : ι) (c : Rpcc ι) :
    pending (s.setClient k c) i = if i = k then c.calls.map Caller.q else pending s i := by
  by_cases hi : i = k
  · subst hi
    simp only [pending, Sys.setClient, Function.update_self, if_true]
  · simp only [pending, Sys.setClient, Function.update_of_ne hi, if_neg hi]

omit [DecidableEq ι] in
theorem map_q_setCall {calls : List (Caller ι)} {xid : ℕ} {f : Caller ι → Caller ι}
    (hf : ∀ ca, (f ca).q = ca.q) :
    (Sys.setCall calls xid f).map Caller.q = calls.map Caller.q := by
  rw [Sys.setCall, List.map_map]
  refine List.map_congr_left fun ca _ => ?_
  rw [Function.comp_apply]
  split
  · exact hf ca
  · rfl

/-- The rest of the system leaves the threads alone. -/
theorem pending_move {Ω : Type} {cfg : Config ι Ω} {s s' : Sys ι Ω} {a : Action ι Ω}
    (hm : Sys.Move cfg s a s') (ha : a.byThread = false) (i : ι) :
    pending s' i = pending s i := by
  have hset : ∀ k (c : Rpcc ι), c.calls.map Caller.q = (s.clients k).calls.map Caller.q →
      pending (s.setClient k c) i = pending s i := by
    intro k c hc
    rw [pending_setClient]
    split
    · rename_i hi
      rw [hc, hi, pending]
    · rfl
  have hcomplete : ∀ rep ret (ca : Caller ι), (Sys.complete rep ret ca).q = ca.q := by
    intro rep ret ca
    rw [Sys.complete]
    split <;> rfl
  cases hm with
  | call => cases ha
  | finish => cases ha
  | transmit k xid => exact hset k _ (by exact map_q_setCall fun _ => rfl)
  | wake k xid => exact hset k _ (by exact map_q_setCall fun _ => rfl)
  | bound k => exact hset k _ (by rfl)
  | gotPdu k c b rest log xid => exact hset c.owner _ (by exact map_q_setCall (hcomplete _ _))
  | _ => rfl

theorem history_move {Ω : Type} {cfg : Config ι Ω} {s s' : Sys ι Ω} {a : Action ι Ω}
    (hm : Sys.Move cfg s a s') (ha : a.byThread = false) : history s'.log = history s.log := by
  cases hm with
  | call => cases ha
  | finish => cases ha
  | gotPdu k c b rest log xid hperm hlen hok hxid hlog =>
    rcases Sys.log_gotPdu hlog with rfl | rfl
    · rfl
    · rfl
  | send k w j rest c st b =>
    rcases Sys.log_send cfg s j rest c b with heq | heq
    · rw [heq]
    · rw [heq]
      rfl
  | _ => rfl

theorem pending_remote {r r' : Remote ι σ τ} {a : RemoteAct ι σ τ}
    (hs : r.step cfg reg a = some r') (ha : a.byThread = false) (i : ι) :
    pending r'.sys i = pending r.sys i ∧ history r'.sys.log = history r.sys.log := by
  cases a with
  | net a =>
    cases a with
    | act b =>
      have hb : (b.on r.obj).byThread = false := by
        cases b <;> exact ha
      have hm := Sys.move_of_step (Remote.step_act hs)
      exact ⟨pending_move hm hb i, history_move hm hb⟩
    | reused k b =>
      obtain ⟨hclients, heq | ⟨c, h, heq⟩⟩ := BufSys.frame_reused (Remote.step_net hs).1
      · exact ⟨by rw [pending, hclients, pending], by rw [heq]⟩
      · exact ⟨by rw [pending, hclients, pending], by rw [heq]; rfl⟩
  | enter k =>
    obtain ⟨j, -, -, rfl⟩ := Remote.step_enter hs
    exact ⟨rfl, rfl⟩
  | race x =>
    rw [Remote.step] at hs
    split at hs
    · obtain rfl := Option.some.inj hs
      exact ⟨rfl, rfl⟩
    · cases hs

/-! ## What a step can do -/

/-- The steps, by what they do to the calls in progress. -/
inductive ThreadSys.Move (cfg : Config ι (σ × τ)) (reg : Int32 → Option (Method σ τ))
    (s : ThreadSys ι σ τ α) : ThreadAct ι σ τ → ThreadSys ι σ τ α → Prop
  /-- `call1` returns at once. -/
  | refuse (i : ι) (c : RemoteCall) (next : Answer c → Prog RemoteCall Answer α)
      (hthread : s.threads i = .call c next) :
      Move cfg reg s (.call i)
        { s with
          threads := Function.update s.threads i (next (bindFailure, none)), failed := true }
  | call (i : ι) (c : RemoteCall) (next : Answer c → Prog RemoteCall Answer α)
      (r : Remote ι σ τ) (q : Request) (hthread : s.threads i = .call c next)
      (hidle : pending s.remote.sys i = [])
      (hr : s.remote.step cfg reg (.net (.act
        (.call i (decide (c.proc = bindProc)) c.proc c.ts c.args c.ret))) = some r)
      (hq : q.toCall = c) (hlog : r.sys.log = .called i q :: s.remote.sys.log)
      (hpend : ∀ k, pending r.sys k = if k = i then [q] else pending s.remote.sys k) :
      Move cfg reg s (.call i) { s with remote := r }
  | finish (i : ι) (xid : ℕ) (c : RemoteCall) (next : Answer c → Prog RemoteCall Answer α)
      (r : Remote ι σ τ) (ca : Caller ι) (hthread : s.threads i = .call c next)
      (hr : s.remote.step cfg reg (.net (.act (.finish i xid))) = some r)
      (hca : ca.q ∈ pending s.remote.sys i)
      (hlog : r.sys.log = .returned i ca.q (Sys.callResult ca).1 (Sys.callResult ca).2 ::
        s.remote.sys.log)
      (hpend : ∀ k, pending r.sys k = if k = i then
        (pending s.remote.sys i).filter fun q => decide (q.xid ≠ ca.q.xid)
        else pending s.remote.sys k) :
      Move cfg reg s (.finish i xid)
        { remote := r
          threads := Function.update s.threads i (next (c.answer ca))
          failed := s.failed || (c.answer ca).2.isNone }
  | net (a : RemoteAct ι σ τ) (r : Remote ι σ τ) (ha : a.byThread = false)
      (hr : s.remote.step cfg reg a = some r) :
      Move cfg reg s (.net a) { s with remote := r }

theorem ThreadSys.move_of_call {i : ι} (hs : s.step cfg reg (.call i) = some s') :
    ThreadSys.Move cfg reg s (.call i) s' := by
  rw [ThreadSys.step] at hs
  split at hs
  · cases hs
  · rename_i c next hthread
    dsimp only at hs
    split at hs
    · cases hs
    · rename_i hbusy
      split at hs
      · obtain rfl := Option.some.inj hs
        exact .refuse i c next hthread
      · rename_i hbound
        obtain ⟨r, hr, rfl⟩ := Option.map_eq_some_iff.1 hs
        have hidle : (s.remote.sys.clients i).calls = [] := by
          simpa using (not_or.1 hbusy).1
        have hcall := Remote.step_act hr
        rw [Action.on, Sys.step, Sys.call] at hcall
        dsimp only at hcall
        rw [if_neg hbound] at hcall
        have hsys := (Option.some.inj hcall).symm
        refine .call i c next r _ hthread (by rw [pending, hidle, List.map_nil]) hr ?_
          (congrArg Sys.log hsys) fun k => ?_
        · rfl
        · rw [hsys]
          refine (pending_setClient s.remote.sys i k _).trans ?_
          rw [List.map_cons, hidle, List.map_nil]

theorem ThreadSys.move_of_finish {i : ι} {xid : ℕ}
    (hs : s.step cfg reg (.finish i xid) = some s') :
    ThreadSys.Move cfg reg s (.finish i xid) s' := by
  rw [ThreadSys.step] at hs
  split at hs
  · rename_i c next ca hthread hca
    obtain ⟨r, hr, rfl⟩ := Option.map_eq_some_iff.1 hs
    have hfinish := Remote.step_act hr
    rw [Action.on, Sys.step, Sys.finish, hca] at hfinish
    dsimp only at hfinish
    split at hfinish
    · cases hfinish
    · have hsys := (Option.some.inj hfinish).symm
      obtain rfl : ca.q.xid = xid := by simpa using List.find?_some hca
      refine .finish i _ c next r ca hthread hr ?_ (congrArg Sys.log hsys) fun k => ?_
      · exact List.mem_map_of_mem (List.mem_of_find?_eq_some hca)
      · rw [hsys]
        refine (pending_setClient s.remote.sys i k _).trans ?_
        simp only [pending, List.filter_map]
        rfl
  · cases hs

/-- **What a step can do.** -/
theorem ThreadSys.move_of_step {a : ThreadAct ι σ τ} (hs : s.step cfg reg a = some s') :
    ThreadSys.Move cfg reg s a s' := by
  cases a with
  | call i => exact move_of_call hs
  | finish i xid => exact move_of_finish hs
  | net a =>
    rw [ThreadSys.step] at hs
    split at hs
    · cases hs
    · rename_i ha
      obtain ⟨r, hr, rfl⟩ := Option.map_eq_some_iff.1 hs
      exact .net a r (by simpa using ha) hr

/-! ## Runs -/

/-- Nothing of the thread is changed. -/
theorem InTurn.frame {p : Prog RemoteCall Answer α} {i : ι}
    {calls : List ((o : Op ι) × Res o)} (h : InTurn p s i calls)
    (hseen : seenOf i s'.remote.sys.log = seenOf i s.remote.sys.log)
    (hpend : pending s'.remote.sys i = pending s.remote.sys i)
    (hthread : s'.threads i = s.threads i) : InTurn p s' i calls where
  seen := by rw [hseen, hpend, h.seen]
  one := hpend ▸ h.one
  follows := hthread ▸ h.follows
  waits := by
    rw [hpend, hthread]
    exact h.waits

/-- **One step**: as long as no call fails. -/
theorem InTurn.step {a : ThreadAct ι σ τ} {p : Prog RemoteCall Answer α} {i : ι}
    {calls : List ((o : Op ι) × Res o)} (h : InTurn p s i calls)
    (hm : ThreadSys.Move cfg reg s a s') (hok : s'.failed = false) :
    ∃ calls', InTurn p s' i calls' := by
  cases hm with
  | refuse => cases hok
  | call k c next r q hthread hidle hr hq hlog hpend =>
    refine ⟨calls, ?_⟩
    by_cases hk : i = k
    · subst hk
      have hp := hpend i
      rw [if_pos rfl] at hp
      refine ⟨?_, by simp [hp], h.follows, fun q' hq' => ?_⟩
      · have hseen := h.seen
        rw [hidle, List.map_nil, List.nil_append] at hseen
        rw [hp, hlog, seenOf_called, if_pos rfl, hseen]
        rfl
      · rw [hp, List.mem_singleton] at hq'
        subst hq'
        exact ⟨hq ▸ next, by subst hq; exact hthread⟩
    · refine h.frame ?_ ((hpend i).trans (if_neg hk)) rfl
      rw [hlog, seenOf_called, if_neg (Ne.symm hk)]
  | finish k xid c next r ca hthread hr hca hlog hpend =>
    by_cases hk : i = k
    · subst hk
      have hp : pending s.remote.sys i = [ca.q] := by
        have hone := h.one
        obtain ⟨q, hq⟩ := List.length_eq_one_iff.1
          (Nat.le_antisymm hone (List.length_pos_of_mem hca))
        rw [hq, List.mem_singleton] at hca
        rw [hq, hca]
      have hp' := hpend i
      rw [if_pos rfl, hp, List.filter_cons_of_neg (by simp), List.filter_nil] at hp'
      -- the thread waits for this call
      obtain ⟨next', hthread'⟩ := h.waits ca.q hca
      obtain ⟨rfl, hnext⟩ := Prog.call.inj (hthread.symm.trans hthread')
      obtain rfl := eq_of_heq hnext
      have hnone : (Sys.callResult ca).2.isNone = false := (Bool.or_eq_false_iff.1 hok).2
      obtain ⟨v, hv⟩ := Option.ne_none_iff_exists'.1 fun hv =>
        Bool.false_ne_true (hnone.symm.trans (congrArg Option.isNone hv))
      refine ⟨⟨(i, ca.q), (Sys.callResult ca).1, v⟩ :: calls, ?_, ?_, ?_, ?_⟩
      · have hseen := h.seen
        rw [hp] at hseen
        rw [hp', hlog, hv, seenOf_returned, hseen]
        rfl
      · rw [hp']
        exact Nat.zero_le 1
      · refine Prog.follows_cons.2 ⟨next, hthread ▸ h.follows, ?_⟩
        exact (Function.update_self i _ _).trans (congrArg next (Prod.ext rfl hv))
      · rw [hp']
        exact fun q hq => absurd hq List.not_mem_nil
    · refine ⟨calls, h.frame ?_ ((hpend i).trans (if_neg hk)) (Function.update_of_ne hk _ _)⟩
      rw [hlog, seenOf_returned_of_ne (Ne.symm hk)]
  | net b r ha hr =>
    obtain ⟨hpend, hseen⟩ := pending_remote hr ha i
    exact ⟨calls, h.frame (by rw [seenOf, seenOf, hseen]) hpend rfl⟩

theorem ThreadSys.Move.failed {a : ThreadAct ι σ τ} (hm : ThreadSys.Move cfg reg s a s')
    (hok : s'.failed = false) : s.failed = false := by
  cases hm with
  | refuse => cases hok
  | finish => exact (Bool.or_eq_false_iff.1 hok).1
  | _ => exact hok

/-- **Every run.** -/
theorem inTurn_of_exec {acts : List (ThreadAct ι σ τ)} {t : ThreadSys ι σ τ α}
    (hexec : exec (ThreadSys.step cfg reg) (.init ps x₀) acts = some t) (hok : t.failed = false)
    (i : ι) : ∃ calls, InTurn (ps i) t i calls := by
  have hinit : InTurn (ps i) (.init ps x₀ : ThreadSys ι σ τ α) i [] :=
    ⟨rfl, Nat.zero_le 1, .nil, fun q hq => absurd hq List.not_mem_nil⟩
  have hstep : ∀ (s : ThreadSys ι σ τ α) a s',
      (s.failed = false → ∃ calls, InTurn (ps i) s i calls) → s.step cfg reg a = some s' →
      s'.failed = false → ∃ calls, InTurn (ps i) s' i calls := by
    intro s a s' h hs hok
    have hm := ThreadSys.move_of_step hs
    obtain ⟨calls, hcalls⟩ := h (hm.failed hok)
    exact hcalls.step hm hok
  exact exec_invariant hstep (fun _ => ⟨[], hinit⟩) hexec hok

/-- What a thread has come to makes typed calls if the thread did at the
start. -/
theorem ThreadSys.Move.typed {a : ThreadAct ι σ τ} (hm : ThreadSys.Move cfg reg s a s')
    {C : RemoteCall → Prop} (htyped : ∀ i, (s.threads i).Calls C) (i : ι) :
    (s'.threads i).Calls C := by
  have hnext : ∀ k c (next : Answer c → Prog RemoteCall Answer α) ans,
      s.threads k = .call c next → (Function.update s.threads k (next ans) i).Calls C := by
    intro k c next ans hthread
    have hk := htyped k
    rw [hthread] at hk
    by_cases hi : i = k
    · subst hi
      rw [Function.update_self]
      exact hk.2 ans
    · rw [Function.update_of_ne hi]
      exact htyped i
  cases hm with
  | refuse k c next hthread => exact hnext k c next _ hthread
  | finish k xid c next r ca hthread => exact hnext k c next _ hthread
  | _ => exact htyped i

/-- An orderly run with threads is an orderly run of the system with the
object, in which the threads make the calls. -/
theorem exists_remote {t : ThreadSys ι σ τ α} {acts : List (ThreadAct ι σ τ)}
    (htyped : ∀ i, (s.threads i).Calls (RemoteCall.Typed (methods cfg reg)))
    (horderly : Steps (ThreadSys.step cfg reg) (ThreadSys.Orderly cfg) s acts)
    (hexec : exec (ThreadSys.step cfg reg) s acts = some t) :
    ∃ acts', exec (Remote.step cfg reg) s.remote acts' = some t.remote ∧
      Steps (Remote.step cfg reg) (Remote.Orderly cfg) s.remote acts' ∧
      (∀ i, (netActs acts').countP (Action.isCallOf i) ≤ acts.countP (ThreadAct.isCallOf i)) ∧
      ∀ a ∈ netActs acts', Typed cfg reg a := by
  induction acts generalizing s with
  | nil =>
    obtain rfl := Option.some.inj hexec
    exact ⟨[], rfl, trivial, fun _ => le_rfl, by simp [netActs]⟩
  | cons a acts ih =>
    obtain ⟨s', hs, hlater⟩ := exec_cons_eq_some.1 hexec
    have hm := ThreadSys.move_of_step hs
    obtain ⟨acts', hexec', hord', hcount, htypes⟩ := ih (hm.typed htyped) (horderly.2 _ hs) hlater
    -- an action of the system, which calls what the thread does
    have hstep : ∀ b, s.remote.step cfg reg b = some s'.remote → s.remote.Orderly cfg b →
        (∀ c, b.toAction = some c → (∀ i, c.isCallOf i → a.isCallOf i) ∧ Typed cfg reg c) →
        ∃ acts'', exec (Remote.step cfg reg) s.remote acts'' = some t.remote ∧
          Steps (Remote.step cfg reg) (Remote.Orderly cfg) s.remote acts'' ∧
          (∀ i, (netActs acts'').countP (Action.isCallOf i) ≤
            (a :: acts).countP (ThreadAct.isCallOf i)) ∧
          ∀ a ∈ netActs acts'', Typed cfg reg a := by
      intro b hb hord hcalls
      refine ⟨b :: acts', exec_cons_eq_some.2 ⟨_, hb, hexec'⟩, ⟨hord, fun r hr => ?_⟩,
        fun i => ?_, ?_⟩
      · obtain rfl := Option.some.inj (hb.symm.trans hr)
        exact hord'
      · rw [List.countP_cons]
        have hle := hcount i
        cases hc : b.toAction with
        | none =>
          rw [netActs, List.filterMap_cons_none hc]
          exact Nat.le_add_right_of_le hle
        | some c =>
          have himp := (hcalls c hc).1 i
          rw [netActs, List.filterMap_cons_some hc, List.countP_cons]
          rw [netActs] at hle
          split
          · rw [if_pos (himp ‹_›)]
            omega
          · omega
      · cases hc : b.toAction with
        | none =>
          rw [netActs, List.filterMap_cons_none hc]
          exact htypes
        | some c =>
          rw [netActs, List.filterMap_cons_some hc]
          exact List.forall_mem_cons.2 ⟨(hcalls c hc).2, htypes⟩
    cases hm with
    | refuse =>
      refine ⟨acts', hexec', hord', fun i => ?_, htypes⟩
      rw [List.countP_cons]
      exact Nat.le_add_right_of_le (hcount i)
    | call i c next r q hthread hidle hr =>
      have hc := htyped i
      rw [hthread] at hc
      refine hstep _ hr (fun _ hj => by cases hj) fun b hb => ?_
      obtain rfl := Option.some.inj hb
      exact ⟨fun _ h => h, hc.1⟩
    | finish i xid c next r ca hthread hr =>
      refine hstep _ hr (fun _ hj => by cases hj) fun b hb => ?_
      obtain rfl := Option.some.inj hb
      exact ⟨fun _ h => h, trivial⟩
    | net b r ha hr =>
      refine hstep b hr horderly.1 fun c hc => ?_
      rw [RemoteAct.byThread, hc] at ha
      cases c with
      | call => cases ha
      | _ => exact ⟨fun i h => (by cases h), trivial⟩

/-- An orderly run with threads is a run of the system in which the methods
are run on the object. -/
theorem exists_regular {acts : List (ThreadAct ι σ τ)} {t : ThreadSys ι σ τ α}
    (hdist : ∀ i, Distinct cfg i)
    (hfew : ∀ i, acts.countP (ThreadAct.isCallOf i) < 2 ^ 32 - 1)
    (htyped : ∀ i, (ps i).Calls (RemoteCall.Typed (methods cfg reg)))
    (horderly : Steps (ThreadSys.step cfg reg) (ThreadSys.Orderly cfg) (.init ps x₀) acts)
    (hexec : exec (ThreadSys.step cfg reg) (.init ps x₀) acts = some t) :
    ∃ acts', exec (Sys.step cfg) .init acts' = some t.remote.sys ∧
      Steps (Sys.step cfg) (OnObject cfg reg x₀) .init acts' ∧
      t.remote.obj = object cfg reg x₀ t.remote.sys.log ∧
      (∀ i, Regular cfg i acts') ∧ ∀ a ∈ acts', Typed cfg reg a := by
  obtain ⟨acts₁, hexec₁, hord₁, hcount, htypes⟩ := exists_remote htyped horderly hexec
  obtain ⟨acts₂, hexec₂, hobj, hlast, hacts⟩ :=
    exists_exec Remote.tidy_init rfl hord₁ hexec₁
  refine ⟨acts₂, hexec₂, hobj, hlast, fun i => ?_, typed_of_forall₂ htypes hacts⟩
  exact regular_of_forall₂ (hdist i) (Nat.lt_of_le_of_lt (hcount i) (hfew i)) hacts

/-- What the threads see is linearizable. -/
theorem linearizable_of_threads {acts : List (ThreadAct ι σ τ)} {t : ThreadSys ι σ τ α}
    (hreg : Serves cfg reg) (hdist : ∀ i, Distinct cfg i)
    (hfew : ∀ i, acts.countP (ThreadAct.isCallOf i) < 2 ^ 32 - 1)
    (htyped : ∀ i, (ps i).Calls (RemoteCall.Typed (methods cfg reg)))
    (horderly : Steps (ThreadSys.step cfg reg) (ThreadSys.Orderly cfg) (.init ps x₀) acts)
    (hexec : exec (ThreadSys.step cfg reg) (.init ps x₀) acts = some t)
    (hstale : ∀ i, NoStale (cfg.cltNonce i) (arrivals t.remote.sys.log)) :
    Linearizable (Does (methods cfg reg)) x₀ (history t.remote.sys.log) t.remote.obj := by
  obtain ⟨acts', hexec', hobj, hlast, hclients, htypes⟩ :=
    exists_regular hdist hfew htyped horderly hexec
  rw [hlast]
  exact linearizable_of_exec hreg hclients htypes hobj hexec' hstale

/-- And what threads have come to in turn, they come to in single steps. -/
theorem atomic_of_inTurn {t : ThreadSys ι σ τ α} {calls : ι → List ((o : Op ι) × Res o)}
    (hlin : Linearizable (Does (methods cfg reg)) x₀ (history t.remote.sys.log) t.remote.obj)
    (hcalls : ∀ i, InTurn (ps i) t i (calls i)) :
    ∃ qs, Relation.ReflTransGen (Atomic (Performs (methods cfg reg))) (ps, x₀)
        (qs, t.remote.obj) ∧
      ∀ i, qs i = t.threads i ∨ (t.remote.sys.clients i).calls ≠ [] ∧
        ∃ c next a, t.threads i = .call c next ∧ qs i = next a := by
  have hturn : ∀ i, (history t.remote.sys.log).filter (fun e => decide (Prod.fst e.op = i)) =
      ((pending t.remote.sys i).head?.map fun q => (i, q)).toList.map .invoked ++
        exchanges (calls i) := by
    intro i
    refine (hcalls i).seen.trans (congrArg (· ++ exchanges (calls i)) ?_)
    -- one call at most is in progress
    have hone := (hcalls i).one
    match pending t.remote.sys i, hone with
    | [], _ => rfl
    | [q], _ => rfl
  have hwaits : ∀ i (o : Op ι), (pending t.remote.sys i).head?.map (fun q => (i, q)) = some o →
      ∃ next, t.threads i = .call o.2.toCall next := by
    intro i o ho
    obtain ⟨q, hq, rfl⟩ := Option.map_eq_some_iff.1 ho
    exact (hcalls i).waits q (List.mem_of_mem_head? hq)
  obtain ⟨qs, hqs, hnear⟩ := hlin.atomic performs_of_does hturn (fun i => (hcalls i).follows) hwaits
  refine ⟨qs, hqs, fun i => (hnear i).imp_right fun ⟨hpend, hcall⟩ => ⟨fun hnil => ?_, hcall⟩⟩
  rw [pending, hnil] at hpend
  cases hpend

/-- **Threads that make remote calls make single steps.** For any number
of threads and programs, each with a client of its own: what the threads
have come to in any orderly run, and the object, they come to as well where
each call is served by the object at once, and a thread whose call has not
returned may be one call further there. Messages may be lost, doubled and
reordered and connections may die, so long as no stale copy of a request
arrives and no call fails. -/
theorem threads_atomic {acts : List (ThreadAct ι σ τ)} {t : ThreadSys ι σ τ α}
    (hreg : Serves cfg reg) (hdist : ∀ i, Distinct cfg i)
    (hfew : ∀ i, acts.countP (ThreadAct.isCallOf i) < 2 ^ 32 - 1)
    (htyped : ∀ i, (ps i).Calls (RemoteCall.Typed (methods cfg reg)))
    (horderly : Steps (ThreadSys.step cfg reg) (ThreadSys.Orderly cfg) (.init ps x₀) acts)
    (hexec : exec (ThreadSys.step cfg reg) (.init ps x₀) acts = some t)
    (hstale : ∀ i, NoStale (cfg.cltNonce i) (arrivals t.remote.sys.log))
    (hok : t.failed = false) :
    ∃ qs, Relation.ReflTransGen (Atomic (Performs (methods cfg reg))) (ps, x₀)
        (qs, t.remote.obj) ∧
      ∀ i, qs i = t.threads i ∨ (t.remote.sys.clients i).calls ≠ [] ∧
        ∃ c next a, t.threads i = .call c next ∧ qs i = next a := by
  have hlin := linearizable_of_threads hreg hdist hfew htyped horderly hexec hstale
  choose calls hcalls using inTurn_of_exec hexec hok
  exact atomic_of_inTurn hlin hcalls

/-! ## A thread of an extent client -/

/-- The thread binds, and puts an extent. -/
def putThread : Prog RemoteCall Answer Int32 := do
  let _ ← .ask ⟨bindProc, [.basic .int], (0, ()), .basic .int⟩
  let r ← .ask ⟨0x6001, [.basic .ulonglong, .basic .string], (5, [104, 105], ()), .basic .int⟩
  return r.1

/-- The thread makes the call `x`, and the call returns. -/
def threadCall (bind : Bool) (x : ℕ) : List (ThreadAct Unit ExtentServer Ambient) :=
  .call () :: (answered bind x).map .net ++ [.finish () x]

/-- The thread makes its two calls. -/
def twoCalls : List (ThreadAct Unit ExtentServer Ambient) :=
  threadCall true 1 ++ .net (.net (.act (.bound () 0))) :: threadCall false 2

/-- The thread is told that the extent was put, as by an extent server at
hand. -/
theorem threads_atomic_putThread : ∃ t,
    exec (ThreadSys.step extentConfig extentMethods) (.init (fun _ => putThread) (.new 0))
      twoCalls = some t ∧
    (t.threads ()).outcome = some 0 ∧
    ∃ qs, Relation.ReflTransGen (Atomic (Performs (methods extentConfig extentMethods)))
        (fun _ => putThread, .new 0) (qs, t.remote.obj) ∧
      ∀ i, qs i = t.threads i ∨ (t.remote.sys.clients i).calls ≠ [] ∧
        ∃ c next a, t.threads i = .call c next ∧ qs i = next a := by
  have h : (exec (ThreadSys.step extentConfig extentMethods)
      (.init (fun _ => putThread) (.new 0)) twoCalls).any (fun t =>
        decide ((t.threads ()).outcome = some 0) && (!t.failed && decide
          ((arrivals t.remote.sys.log).map fun h => (h.cltNonce, h.xid.toUInt32.toNat)).Nodup)) =
      true := by
    decide +kernel
  obtain ⟨t, ht, hany⟩ := (Option.any_eq_true _ _).1 h
  obtain ⟨hout, hany⟩ := Bool.and_eq_true_iff.1 hany
  obtain ⟨hok, hnodup⟩ := Bool.and_eq_true_iff.1 hany
  have hdist : ∀ i, Distinct extentConfig i :=
    fun _ => ⟨by simp [extentConfig], fun _ _ => rfl⟩
  have htyped : putThread.Calls (RemoteCall.Typed (methods extentConfig extentMethods)) := by
    refine ⟨fun m hm => ?_, fun _ => ⟨fun m hm => ?_, fun _ => trivial⟩⟩
    · obtain rfl := Option.some.inj ((show methods extentConfig extentMethods
        bindProc.toInt32 = some (bindMethod 9) from rfl).symm.trans hm)
      exact ⟨rfl, rfl⟩
    · obtain rfl := Option.some.inj ((show methods extentConfig extentMethods
        (0x6001 : UInt32).toInt32 = some putMethod from rfl).symm.trans hm)
      exact ⟨rfl, rfl⟩
  refine ⟨t, ht, of_decide_eq_true hout, threads_atomic (fun _ => rfl) hdist (fun i => ?_)
    (fun _ => htyped) (by decide +kernel) ht
    (fun _ => noStale_of_nodup _ (of_decide_eq_true hnodup)) (by simpa using hok)⟩
  exact Nat.lt_of_le_of_lt List.countP_le_length (by decide)

end Rpc

end Yfs
