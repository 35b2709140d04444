import Yfs.Common.Pick
import Yfs.Rpc.System

/-!
# What a step can do

`Move` lists the steps of the system with the state each leads to and
what is known when it is taken; `move_of_step` says that there are no
others. The invariants are proved by cases on it, and nothing after it
unfolds `step`.
-/

namespace Yfs

open Common

namespace Rpc

variable {ι Ω : Type} [DecidableEq ι]

namespace Sys

/-- The job a step works on. -/
def picked (s : Sys ι Ω) : Action ι Ω → Option (Job ι)
  | .dispatch k _ => s.jobs[k]?
  | _ => none

/-- The header of the request a job is for. -/
def header (cfg : Config ι Ω) (j : Job ι) : ReqHeader := (parse cfg j.pdu).2

/-- `dispatch` does not get as far as the handler with this header: it is
for another server, or for a procedure that is not registered. -/
def Refused (cfg : Config ι Ω) (h : ReqHeader) : Prop :=
  (h.srvNonce ≠ 0 ∧ h.srvNonce ≠ cfg.nonce) ∨ cfg.procs h.proc = none

/-- Either end of a connection is dead. -/
def dead (s : Sys ι Ω) (c : Conn ι) : Bool := s.cltDead c || s.srvDead c

/-- A step that a network of TCP connections can take: nothing is
doubled, and nothing lost but on a connection with a dead end. -/
def Tcp (s : Sys ι Ω) : Action ι Ω → Prop
  | .dupSrv _ => False
  | .dupClt _ => False
  | .dropSrv k => ∀ m, s.toSrv[k]? = some m → s.dead m.1 = true
  | .dropClt k => ∀ m, s.toClt[k]? = some m → s.dead m.1 = true
  | _ => True

/-- The steps. -/
inductive Move (cfg : Config ι Ω) (s : Sys ι Ω) : Action ι Ω → Sys ι Ω → Prop
  /-- Nothing changes. -/
  | idle (a : Action ι Ω) : Move cfg s a s
  | call (i : ι) (bind : Bool) (proc : UInt32) (ts : List Ty) (args : Vals ts) (ret : Ty)
      (ca : Caller ι) (hxid : ca.q.xid = (s.clients i).xid)
      (hrep : ca.q.xidRep = windowFront (s.clients i).window) (hdone : ca.done = false)
      (hch : ca.ch = none) (htr : ca.transmit = true) :
      Move cfg s (.call i bind proc ts args ret)
        { s.setClient i { s.clients i with
            xid := ((s.clients i).xid + 1) % 2 ^ 32, calls := ca :: (s.clients i).calls } with
          log := .called i ca.q :: s.log }
  | transmit (i : ι) (xid : ℕ) (connect : Bool) (ca : Caller ι) (r : Option (Conn ι) × ℕ)
      (ch : Option (Conn ι)) (msgs : List (Conn ι × List UInt8))
      (hca : findCall (s.clients i).calls xid = some ca) (htr : ca.transmit = true)
      (hr : r = s.getRefconn i connect) (hch : ch = if r.1.isSome then r.1 else ca.ch)
      (hmsgs : msgs = ch.elim [] fun c =>
        s.onWire c (ca.q.marshalled cfg.mem (cfg.cltNonce i)).str) :
      Move cfg s (.transmit i xid connect)
        { s.setClient i { s.clients i with
            chan := r.1, nconn := r.2,
            calls := setCall (s.clients i).calls xid
              fun ca => { ca with ch := ch, transmit := false } } with
          toSrv := msgs ++ s.toSrv }
  | wake (i : ι) (xid : ℕ) (ca : Caller ι) (hca : findCall (s.clients i).calls xid = some ca)
      (hdone : ca.done = false) (hch : ca.ch.all s.cltDead = true) :
      Move cfg s (.wake i xid)
        (s.setClient i { s.clients i with
          calls := setCall (s.clients i).calls xid fun ca => { ca with transmit := true } })
  | finish (i : ι) (xid : ℕ) (ca : Caller ι) (binds : List UInt32)
      (hca : findCall (s.clients i).calls xid = some ca) (htr : ca.transmit = false) :
      Move cfg s (.finish i xid)
        { s.setClient i { s.clients i with
            calls := (s.clients i).calls.filter fun ca => decide (ca.q.xid ≠ xid),
            window := updateXidRep (s.clients i).window xid, binds := binds } with
          log := .returned i ca.q (callResult ca).1 (callResult ca).2 :: s.log }
  | bound (i : ι) (k : ℕ) (v : UInt32) (binds : List UInt32) :
      Move cfg s (.bound i k)
        (s.setClient i { s.clients i with bindDone := true, srvNonce := v, binds := binds })
  | gotPdu (k : ℕ) (c : Conn ι) (b : List UInt8) (rest : List (Conn ι × List UInt8))
      (log : List (Event ι Ω)) (xid : ℕ) (hperm : s.toClt.Perm ((c, b) :: rest))
      (hlen : b.length ≤ maxPdu)
      (hok : (Unmarshall.ofBytes cfg.mem b).unpackReplyHeader.1.ok = true)
      (hxid : xid = (Unmarshall.ofBytes cfg.mem b).unpackReplyHeader.2.xid.toUInt32.toNat)
      (hlog : log = match findCall (s.clients c.owner).calls xid with
        | none => s.log
        | some ca => if ca.done then s.log else .replied c.owner xid b :: s.log) :
      Move cfg s (.gotPdu k)
        { s.setClient c.owner { s.clients c.owner with
            window := updateXidRep (s.clients c.owner).window xid,
            calls := setCall (s.clients c.owner).calls xid
              (complete (Unmarshall.ofBytes cfg.mem b).unpackReplyHeader.1
                (Unmarshall.ofBytes cfg.mem b).unpackReplyHeader.2.ret) } with
          toClt := rest, log := log }
  | recv (k : ℕ) (c : Conn ι) (b : List UInt8) (rest : List (Conn ι × List UInt8))
      (hperm : s.toSrv.Perm ((c, b) :: rest)) (hlen : b.length ≤ maxPdu) :
      Move cfg s (.recv k) { s with toSrv := rest, jobs := ⟨c, b, .queued⟩ :: s.jobs }
  /-- The header is refused. -/
  | reject (k : ℕ) (w : Ω) (j : Job ι) (rest : List (Job ι)) (hpick : s.jobs[k]? = some j)
      (hperm : s.jobs.Perm (j :: rest)) (hphase : j.phase = .queued)
      (hbad : (parse cfg j.pdu).1.ok = false ∨ cfg.procs (header cfg j).proc = none) :
      Move cfg s (.dispatch k w) { s with jobs := rest }
  /-- The request is for another server. -/
  | oldsrv (k : ℕ) (w : Ω) (j : Job ι) (rest : List (Job ι)) (hpick : s.jobs[k]? = some j)
      (hperm : s.jobs.Perm (j :: rest)) (hphase : j.phase = .queued)
      (hold : (header cfg j).srvNonce ≠ 0 ∧ (header cfg j).srvNonce ≠ cfg.nonce) :
      Move cfg s (.dispatch k w)
        { s with
          jobs := j.goto (.send j.conn none
            (failureReply cfg.mem (header cfg j) oldsrvFailure)) :: rest }
  /-- The request is accepted, and `conns_` updated. -/
  | accept (k : ℕ) (w : Ω) (j : Job ι) (rest : List (Job ι)) (hpick : s.jobs[k]? = some j)
      (hperm : s.jobs.Perm (j :: rest)) (hphase : j.phase = .queued)
      (hok : ¬ Refused cfg (header cfg j)) (hnonce : (header cfg j).cltNonce ≠ 0) :
      Move cfg s (.dispatch k w)
        { s with
          conns := fun n => if n = (header cfg j).cltNonce then some j.conn else s.conns n
          jobs := j.goto .check :: rest }
  /-- A client without at-most-once semantics goes on to the handler. -/
  | anonymous (k : ℕ) (w : Ω) (j : Job ι) (rest : List (Job ι)) (hpick : s.jobs[k]? = some j)
      (hperm : s.jobs.Perm (j :: rest)) (hphase : j.phase = .queued)
      (hok : ¬ Refused cfg (header cfg j)) (hnonce : (header cfg j).cltNonce = 0) :
      Move cfg s (.dispatch k w) { s with jobs := j.goto .handler :: rest }
  | check (k : ℕ) (w : Ω) (j : Job ι) (rest : List (Job ι)) (hpick : s.jobs[k]? = some j)
      (hperm : s.jobs.Perm (j :: rest)) (hphase : j.phase = .check) :
      Move cfg s (.dispatch k w) (s.check cfg j rest)
  | handler (k : ℕ) (w : Ω) (j : Job ι) (rest : List (Job ι)) (f : Handler Ω) (b : List UInt8)
      (hpick : s.jobs[k]? = some j) (hperm : s.jobs.Perm (j :: rest)) (hphase : j.phase = .handler)
      (hf : cfg.procs (header cfg j).proc = some f)
      (hret : ¬ ((f.fn w (parse cfg j.pdu).1 (.new cfg.mem)).ret < 0 ∧
        (f.fn w (parse cfg j.pdu).1 (.new cfg.mem)).ret ≠ unmarshalArgsFailure))
      (hb : b = ((f.fn w (parse cfg j.pdu).1 (.new cfg.mem)).rep.packReplyHeader
        ⟨(header cfg j).xid, (f.fn w (parse cfg j.pdu).1 (.new cfg.mem)).ret⟩).str) :
      Move cfg s (.dispatch k w)
        { s with
          jobs := j.goto (if (header cfg j).cltNonce ≠ 0 then .addReply b else .choose b) :: rest
          log := .executed j.pdu w (f.fn w (parse cfg j.pdu).1 (.new cfg.mem)).ret b :: s.log }
  | addReply (k : ℕ) (w : Ω) (j : Job ι) (rest : List (Job ι)) (b : List UInt8)
      (hpick : s.jobs[k]? = some j) (hperm : s.jobs.Perm (j :: rest))
      (hphase : j.phase = .addReply b) :
      Move cfg s (.dispatch k w) (s.storeReply cfg j rest b)
  | choose (k : ℕ) (w : Ω) (j : Job ι) (rest : List (Job ι)) (b : List UInt8) (c : Conn ι)
      (hpick : s.jobs[k]? = some j) (hperm : s.jobs.Perm (j :: rest)) (hphase : j.phase = .choose b)
      (hc : c = j.conn ∨ s.conns (header cfg j).cltNonce = some c) :
      Move cfg s (.dispatch k w) { s with jobs := j.goto (.send c (some .new) b) :: rest }
  | send (k : ℕ) (w : Ω) (j : Job ι) (rest : List (Job ι)) (c : Conn ι) (st : Option RpcState)
      (b : List UInt8) (hpick : s.jobs[k]? = some j) (hperm : s.jobs.Perm (j :: rest))
      (hphase : j.phase = .send c st b) :
      Move cfg s (.dispatch k w) (s.send cfg j rest c b)
  /-- Connections die, and messages are doubled or lost. -/
  | net (a : Action ι Ω) (toSrv toClt : List (Conn ι × List UInt8))
      (cltDead srvDead : Conn ι → Bool)
      (hsrv : ∀ m ∈ toSrv, m ∈ s.toSrv) (hclt : ∀ m ∈ toClt, m ∈ s.toClt)
      (hdead : ∀ c, s.dead c = true → (cltDead c || srvDead c) = true)
      (hmade : ∀ c, (cltDead c || srvDead c) = true →
        s.dead c = true ∨ c.no < (s.clients c.owner).nconn)
      (htcp : Tcp s a → ∀ m ∈ s.toSrv, m ∈ toSrv ∨ s.dead m.1 = true)
      (hpick : s.picked a = none) :
      Move cfg s a
        { s with toSrv := toSrv, toClt := toClt, cltDead := cltDead, srvDead := srvDead }

variable {cfg : Config ι Ω} {s s' : Sys ι Ω}

/-- A call that may be made adds a caller, and its request to the log. -/
theorem move_of_call {i : ι} {bind : Bool} {proc : UInt32} {ts : List Ty} {args : Vals ts}
    {ret : Ty} (h : s.call cfg i bind proc ts args ret = some s') :
    Move cfg s (.call i bind proc ts args ret) s' := by
  simp only [call] at h
  split at h
  · cases h
    exact .idle _
  · cases h
    exact .call i bind proc ts args ret _ rfl rfl rfl rfl rfl

/-- A transmission puts the request on the wire, or loses it. -/
theorem move_of_transmit {i : ι} {xid : ℕ} {connect : Bool}
    (h : s.transmit cfg i xid connect = some s') : Move cfg s (.transmit i xid connect) s' := by
  unfold transmit at h
  split at h
  · cases h
  · rename_i ca hca
    by_cases htr : ca.transmit = false
    · rw [if_pos htr] at h
      cases h
    · rw [if_neg htr] at h
      cases h
      refine .transmit i xid connect ca _ _ _ hca (Bool.eq_true_of_not_eq_false htr) rfl rfl ?_
      split <;> rename_i hch <;> rw [hch] <;> rfl

theorem move_of_wake {i : ι} {xid : ℕ} (h : s.wake cfg i xid = some s') :
    Move cfg s (.wake i xid) s' := by
  unfold wake at h
  split at h
  · cases h
  · rename_i ca hca
    split at h
    · cases h
    · rename_i hno
      split at h
      · rename_i hyes
        cases h
        exact .wake i xid ca hca (Bool.eq_false_of_not_eq_true fun hd => hno (.inr hd)) hyes.2
      · cases h
        exact .idle _

/-- A call that leaves the loop is gone, and its result in the log. -/
theorem move_of_finish {i : ι} {xid : ℕ} (h : s.finish i xid = some s') :
    Move cfg s (.finish i xid) s' := by
  unfold finish at h
  split at h
  · cases h
  · rename_i ca hca
    by_cases htr : ca.transmit = true
    · rw [if_pos htr] at h
      cases h
    · rw [if_neg htr] at h
      cases h
      exact .finish i xid ca _ hca (Bool.eq_false_of_not_eq_true htr)

/-- A reply is read, and completes a call or is dropped. -/
theorem move_of_gotPdu {k : ℕ} (h : s.gotPdu cfg k = some s') : Move cfg s (.gotPdu k) s' := by
  unfold gotPdu at h
  split at h
  · cases h
  · rename_i c b hk
    have hperm := perm_eraseIdx hk
    by_cases hno : s.cltDead c = true ∨ b.length > maxPdu
    · rw [if_pos hno] at h
      cases h
    · rw [if_neg hno] at h
      dsimp only at h
      by_cases hok : (Unmarshall.ofBytes cfg.mem b).unpackReplyHeader.1.ok = false
      · -- the header did not unpack, and the message is gone
        rw [if_pos hok] at h
        obtain rfl := Option.some.inj h
        exact .net (.gotPdu k) s.toSrv _ s.cltDead s.srvDead (fun _ => id)
          (fun m hm => (mem_of_pick hperm).2 (.inr hm)) (fun _ => id) (fun _ => .inl)
          (fun _ m hm => .inl hm) rfl
      · rw [if_neg hok] at h
        obtain rfl := Option.some.inj h
        exact .gotPdu k c b _ _ _ hperm (by omega) (Bool.eq_true_of_not_eq_false hok) rfl rfl

theorem move_of_recv {k : ℕ} (h : s.recv k = some s') : Move cfg s (.recv k) s' := by
  unfold recv at h
  split at h
  · cases h
  · rename_i c b hk
    split at h
    · cases h
    · rename_i hno
      cases h
      exact .recv k c b _ (perm_eraseIdx hk) (by omega)

/-- The first step of a dispatch turns the request away, or goes on with it. -/
theorem move_of_start {k : ℕ} {w : Ω} {j : Job ι} {rest : List (Job ι)}
    (hk : s.jobs[k]? = some j) (hperm : s.jobs.Perm (j :: rest)) (hphase : j.phase = .queued) :
    Move cfg s (.dispatch k w) (s.start cfg j rest) := by
  simp only [start]
  by_cases hok : (parse cfg j.pdu).1.ok = false
  · rw [if_pos hok]
    exact .reject k w j _ hk hperm hphase (.inl hok)
  rw [if_neg hok]
  by_cases hold : (parse cfg j.pdu).2.srvNonce ≠ 0 ∧ (parse cfg j.pdu).2.srvNonce ≠ cfg.nonce
  · rw [if_pos hold]
    exact .oldsrv k w j _ hk hperm hphase hold
  rw [if_neg hold]
  by_cases hproc : (cfg.procs (parse cfg j.pdu).2.proc).isNone = true
  · rw [if_pos hproc]
    exact .reject k w j _ hk hperm hphase (.inr (Option.isNone_iff_eq_none.1 hproc))
  rw [if_neg hproc]
  have hacc : ¬ Refused cfg (header cfg j) := fun h =>
    h.elim hold fun hnone => hproc (Option.isNone_iff_eq_none.2 hnone)
  by_cases hn : (parse cfg j.pdu).2.cltNonce ≠ 0
  · rw [if_pos hn]
    exact .accept k w j _ hk hperm hphase hacc hn
  · rw [if_neg hn]
    exact .anonymous k w j _ hk hperm hphase hacc (not_not.1 hn)

theorem move_of_runHandler {k : ℕ} {w : Ω} {j : Job ι} {rest : List (Job ι)}
    (hk : s.jobs[k]? = some j) (hperm : s.jobs.Perm (j :: rest)) (hphase : j.phase = .handler)
    (h : s.runHandler cfg j rest w = some s') : Move cfg s (.dispatch k w) s' := by
  simp only [runHandler] at h
  cases hf : cfg.procs (parse cfg j.pdu).2.proc with
  | none =>
    rw [hf] at h
    cases h
  | some f =>
    rw [hf] at h
    dsimp only at h
    split at h
    · cases h
    · rename_i hret
      obtain rfl := Option.some.inj h
      exact .handler k w j _ f _ hk hperm hphase hf hret rfl

/-- The reply is to go out where the request came from, or, where that
connection is dead, on the latest of the client. -/
theorem move_of_choose {k : ℕ} {w : Ω} {j : Job ι} {rest : List (Job ι)} {b : List UInt8}
    (hk : s.jobs[k]? = some j) (hperm : s.jobs.Perm (j :: rest)) (hphase : j.phase = .choose b)
    (h : s.choose cfg j rest b = some s') : Move cfg s (.dispatch k w) s' := by
  simp only [choose] at h
  split at h
  · obtain ⟨c, hc, rfl⟩ := Option.map_eq_some_iff.1 h
    exact .choose k w j _ b c hk hperm hphase (.inr hc)
  · obtain rfl := Option.some.inj h
    exact .choose k w j _ b j.conn hk hperm hphase (.inl rfl)

/-- A step of a dispatch, for each place where it can be. -/
theorem move_of_dispatch {k : ℕ} {w : Ω} (h : s.dispatch cfg k w = some s') :
    Move cfg s (.dispatch k w) s' := by
  unfold dispatch at h
  cases hk : s.jobs[k]? with
  | none =>
    rw [hk] at h
    cases h
  | some j =>
    rw [hk] at h
    dsimp only at h
    have hperm := perm_eraseIdx hk
    cases hphase : j.phase with
    | queued =>
      rw [hphase] at h
      exact Option.some.inj h ▸ move_of_start hk hperm hphase
    | check =>
      rw [hphase] at h
      exact Option.some.inj h ▸ .check k w j _ hk hperm hphase
    | handler =>
      rw [hphase] at h
      exact move_of_runHandler hk hperm hphase h
    | addReply b =>
      rw [hphase] at h
      exact Option.some.inj h ▸ .addReply k w j _ b hk hperm hphase
    | choose b =>
      rw [hphase] at h
      exact move_of_choose hk hperm hphase h
    | send c st b =>
      rw [hphase] at h
      exact Option.some.inj h ▸ .send k w j _ c st b hk hperm hphase

/-- **Every step is one of the moves.** -/
theorem move_of_step {a : Action ι Ω} (h : s.step cfg a = some s') : Move cfg s a s' := by
  cases a with
  | call i bind proc ts args ret => exact move_of_call h
  | transmit i xid connect => exact move_of_transmit h
  | wake i xid => exact move_of_wake h
  | finish i xid => exact move_of_finish h
  | bound i k =>
    obtain ⟨v, -, rfl⟩ := Option.map_eq_some_iff.1 h
    exact .bound i k v _
  | gotPdu k => exact move_of_gotPdu h
  | recv k => exact move_of_recv h
  | dispatch k w => exact move_of_dispatch h
  | dieClient c =>
    simp only [step, dieClient] at h
    split at h
    · rename_i hmade
      obtain rfl := Option.some.inj h
      refine .net _ s.toSrv s.toClt _ s.srvDead (fun _ => id) (fun _ => id) (fun d => ?_)
        (fun d => ?_) (fun _ m hm => .inl hm) rfl
      · by_cases hd : d = c <;> simp [dead, hd]
      · by_cases hd : d = c
        · exact fun _ => .inr (hd ▸ hmade)
        · simp only [Function.update_of_ne hd]
          exact .inl
    · cases h
  | dieServer c =>
    simp only [step, dieServer] at h
    split at h
    · rename_i hmade
      obtain rfl := Option.some.inj h
      refine .net _ s.toSrv s.toClt s.cltDead _ (fun _ => id) (fun _ => id) (fun d => ?_)
        (fun d => ?_) (fun _ m hm => .inl hm) rfl
      · by_cases hd : d = c <;> simp [dead, hd]
      · by_cases hd : d = c
        · exact fun _ => .inr (hd ▸ hmade)
        · simp only [Function.update_of_ne hd]
          exact .inl
    · cases h
  | dupSrv k =>
    obtain ⟨m, hm, rfl⟩ := Option.map_eq_some_iff.1 h
    refine .net _ _ s.toClt s.cltDead s.srvDead (fun m' hm' => ?_) (fun _ => id) (fun _ => id)
      (fun _ => .inl) (fun htcp => htcp.elim) rfl
    rcases List.mem_cons.1 hm' with rfl | hm'
    · exact List.mem_of_getElem? hm
    · exact hm'
  | dropSrv k =>
    obtain ⟨m, hm, rfl⟩ := Option.map_eq_some_iff.1 h
    have hperm := perm_eraseIdx hm
    refine .net _ _ s.toClt s.cltDead s.srvDead (fun m' hm' => (mem_of_pick hperm).2 (.inr hm'))
      (fun _ => id) (fun _ => id) (fun _ => .inl) (fun htcp m' hm' => ?_) rfl
    rcases (mem_of_pick hperm).1 hm' with rfl | hm'
    · exact .inr (htcp _ hm)
    · exact .inl hm'
  | dupClt k =>
    obtain ⟨m, hm, rfl⟩ := Option.map_eq_some_iff.1 h
    refine .net _ s.toSrv _ s.cltDead s.srvDead (fun _ => id) (fun m' hm' => ?_) (fun _ => id)
      (fun _ => .inl) (fun _ m hm => .inl hm) rfl
    rcases List.mem_cons.1 hm' with rfl | hm'
    · exact List.mem_of_getElem? hm
    · exact hm'
  | dropClt k =>
    obtain ⟨m, hm, rfl⟩ := Option.map_eq_some_iff.1 h
    have hperm := perm_eraseIdx hm
    exact .net _ s.toSrv _ s.cltDead s.srvDead (fun _ => id)
      (fun m' hm' => (mem_of_pick hperm).2 (.inr hm')) (fun _ => id) (fun _ => .inl)
      (fun _ m hm => .inl hm) rfl

/-! ## The record -/

omit [DecidableEq ι]

/-- A message that a client reads is recorded if it completes a call, -/
theorem log_gotPdu {c : Conn ι} {xid : ℕ} {b : List UInt8} {log : List (Event ι Ω)}
    (h : log = match findCall (s.clients c.owner).calls xid with
      | none => s.log
      | some ca => if ca.done then s.log else .replied c.owner xid b :: s.log) :
    log = s.log ∨ log = .replied c.owner xid b :: s.log := by
  split at h
  · exact .inl h
  · split at h
    · exact .inl h
    · exact .inr h

/-- and one that the server sends if the connection is alive. -/
theorem log_send (cfg : Config ι Ω) (s : Sys ι Ω) [DecidableEq ι] (j : Job ι) (rest : List (Job ι))
    (c : Conn ι) (b : List UInt8) :
    (s.send cfg j rest c b).log = s.log ∨
      (s.send cfg j rest c b).log = .sent c (header cfg j) :: s.log := by
  rw [send]
  dsimp only
  split
  · exact .inl rfl
  · exact .inr rfl

/-- What is known of an event when it is recorded: a call acknowledges as
far as its client's window goes, and an execution is by a job at its
handler. -/
def Recorded (s : Sys ι Ω) : Event ι Ω → Prop
  | .called i q => q.xidRep = windowFront (s.clients i).window
  | .executed pdu _ _ _ => ∃ j ∈ s.jobs, j.pdu = pdu ∧ j.phase = .handler
  | _ => True

/-- **What a step records**: one event at most. -/
theorem log_move [DecidableEq ι] {a : Action ι Ω} (hm : Move cfg s a s') :
    s'.log = s.log ∨ ∃ e, s'.log = e :: s.log ∧ Recorded s e := by
  cases hm with
  | call i bind proc ts args ret ca hxid hrep => exact .inr ⟨_, rfl, hrep⟩
  | finish => exact .inr ⟨_, rfl, trivial⟩
  | gotPdu k c b rest log xid hperm hlen hok hxid hlog =>
    rcases log_gotPdu hlog with heq | heq
    · exact .inl heq
    · exact .inr ⟨_, heq, trivial⟩
  | check => exact .inr ⟨_, rfl, trivial⟩
  | handler k w j rest f b hpick hperm hphase =>
    exact .inr ⟨_, rfl, j, List.mem_of_getElem? hpick, rfl, hphase⟩
  | send k w j rest c st b =>
    rcases log_send cfg s j rest c b with heq | heq
    · exact .inl heq
    · exact .inr ⟨_, heq, trivial⟩
  | _ => exact .inl rfl

/-! ## The reply window -/

variable {j : Job ι} {rest : List (Job ι)} {n : UInt32}

@[simp] theorem header_goto (j : Job ι) (p : Phase ι) : header cfg (j.goto p) = header cfg j := rfl

/-- `check`, by what the request finds. -/
theorem classified_check (cfg : Config ι Ω) (s : Sys ι Ω) (j : Job ι) (rest : List (Job ι)) :
    ∃ r, Classified (s.replyWindow (header cfg j).cltNonce) (header cfg j).xid.toUInt32.toNat
        (header cfg j).xidRep.toUInt32.toNat r ∧
      s.check cfg j rest = { s with
        replyWindow := fun n => if n = (header cfg j).cltNonce then r.1 else s.replyWindow n
        jobs := match r.2.1 with
          | .new => j.goto .handler :: rest
          | .inprogress => rest
          | .done => j.goto (.send j.conn (some .done) r.2.2) :: rest
          | .forgotten => j.goto (.send j.conn (some .forgotten)
              (failureReply cfg.mem (header cfg j) atmostonceFailure)) :: rest
        log := .classified (header cfg j) r.2.1 :: s.log } :=
  ⟨_, classified_checkduplicate _ _ _, rfl⟩

/-- The window of another client is not touched. -/
theorem check_replyWindow_of_ne (hn : (header cfg j).cltNonce ≠ n) :
    (s.check cfg j rest).replyWindow n = s.replyWindow n := if_neg hn.symm

theorem storeReply_replyWindow_of_ne {b : List UInt8} (hn : (header cfg j).cltNonce ≠ n) :
    (s.storeReply cfg j rest b).replyWindow n = s.replyWindow n := if_neg hn.symm

/-- The reply goes into the client's own window. -/
theorem storeReply_replyWindow {b : List UInt8} (hn : (header cfg j).cltNonce = n) :
    (s.storeReply cfg j rest b).replyWindow n =
      Yfs.addReply (s.replyWindow n) (header cfg j).xid.toUInt32.toNat b := if_pos hn.symm

end Sys

end Rpc

end Yfs
