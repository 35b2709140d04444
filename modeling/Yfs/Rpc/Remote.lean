import Yfs.Common.Linear
import Yfs.Files.Extent
import Yfs.Rpc.AtMostOnce
import Yfs.Rpc.Buffers
import Yfs.Rpc.Restart

/-!
# Remote calls on an object

The handlers a server registers are the methods of one object, as in
`extent_smain.cc`. Here the object is there beside the system: a method
that is run finds it as the one before left it, and calls of it are seen
by the clients from `call1` until `call_m` returns. Nothing keeps two
threads of `dispatchpool_` from being inside methods of the object at once,
and the extent server has no mutex: as long as two are inside, anything may
become of the object.

Whatever happens to the messages and to the connections, the calls are as
if each had been made at one moment in between (`remote_linearizable`),
where the run is `Orderly`, no two methods run at once and no buffer is
freed under a send, and no stale copy of a request arrives. A call that
fails may have been made or not.
-/

namespace Yfs

open Common

namespace Rpc

variable {ι σ τ : Type}

/-! ## The object -/

/-- A method of an object with the states `σ`, to be registered with
`rpcs::reg`. What it reads besides, such as the time, is in `τ`. -/
structure Method (σ τ : Type) where
  args : List Ty
  ret : Ty
  /-- The returned `int`, the result, and the object then. -/
  meth : σ → τ → Vals args → Int32 × ret.Val × σ

/-- The handler that `reg` makes of it. -/
def Method.handler (m : Method σ τ) : Handler (σ × τ) where
  args := m.args
  ret := m.ret
  meth := fun w v => ((m.meth w.1 w.2 v).1, (m.meth w.1 w.2 v).2.1)

/-- `rpcs::rpcbind`, which leaves the object alone. -/
def bindMethod (nonce : UInt32) : Method σ τ where
  args := [.basic .int]
  ret := .basic .int
  meth := fun x _ _ => (0, nonce.toInt32, x)

/-- The methods that are called remotely, by procedure. -/
def methods (cfg : Config ι (σ × τ)) (reg : Int32 → Option (Method σ τ)) (proc : Int32) :
    Option (Method σ τ) :=
  if proc = bindProc.toInt32 then some (bindMethod cfg.nonce) else reg proc

/-- The handlers of the server are the methods. -/
def Serves (cfg : Config ι (σ × τ)) (reg : Int32 → Option (Method σ τ)) : Prop :=
  ∀ proc, cfg.handlers proc = (reg proc).map Method.handler

/-- The object after `fn` of a handler was run on a request. -/
def objectAfter (cfg : Config ι (σ × τ)) (reg : Int32 → Option (Method σ τ)) (pdu : List UInt8)
    (w : σ × τ) : σ :=
  let r := Sys.parse cfg pdu
  match methods cfg reg r.2.proc with
  | none => w.1
  | some m =>
    let a := r.1.getAll m.args
    if a.1.okdone then (m.meth w.1 w.2 a.2).2.2 else w.1

/-- The job is at the handler of a method of the object. `rpcbind` is one
of the server itself. -/
def inMethod {Ω : Type} (cfg : Config ι Ω) (j : Job ι) : Bool :=
  match j.phase with
  | .handler => decide ((Sys.header cfg j).proc ≠ bindProc.toInt32)
  | _ => false

/-- The system with its buffers, and the object. -/
structure Remote (ι σ τ : Type) extends BufSys ι (σ × τ) where
  obj : σ
  /-- The jobs whose thread is inside a method. -/
  inside : List (Job ι)

/-- In the beginning. -/
def Remote.init (x₀ : σ) : Remote ι σ τ := ⟨.init, x₀, []⟩

/-- What can happen. -/
inductive RemoteAct (ι σ τ : Type) where
  /-- An action of the system. A method that a thread is inside returns in
  the step of its job. -/
  | net (a : BufAct ι τ)
  /-- The thread of the `k`-th job enters the method. -/
  | enter (k : ℕ)
  /-- Two threads are inside, and leave `x` of the object. -/
  | race (x : σ)

/-- The action on the system where a buffer is its contents. -/
def RemoteAct.toAction : RemoteAct ι σ τ → Option (Action ι τ)
  | .net a => a.toAction
  | _ => none

/-- These actions of a run. -/
def netActs (acts : List (RemoteAct ι σ τ)) : List (Action ι τ) :=
  acts.filterMap RemoteAct.toAction

/-- An action, with the object there for a method to be run on. -/
def Action.on (x : σ) : Action ι τ → Action ι (σ × τ)
  | .call i bind proc ts args ret => .call i bind proc ts args ret
  | .transmit i xid connect => .transmit i xid connect
  | .wake i xid => .wake i xid
  | .finish i xid => .finish i xid
  | .bound i k => .bound i k
  | .gotPdu k => .gotPdu k
  | .recv k => .recv k
  | .dispatch k t => .dispatch k (x, t)
  | .dieClient c => .dieClient c
  | .dieServer c => .dieServer c
  | .dupSrv k => .dupSrv k
  | .dropSrv k => .dropSrv k
  | .dupClt k => .dupClt k
  | .dropClt k => .dropClt k

/-- The same, for the system with its buffers. -/
def BufAct.on (x : σ) : BufAct ι τ → BufAct ι (σ × τ)
  | .act a => .act (a.on x)
  | .reused k b => .reused k b

/-- The job whose method returns in this step. -/
def Remote.returning (cfg : Config ι (σ × τ)) (s : Remote ι σ τ) : BufAct ι τ → Option (Job ι)
  | .act (.dispatch k _) => s.sys.jobs[k]?.filter (inMethod cfg)
  | _ => none

/-- The object after a step: the method of the job may return. -/
def Remote.next (cfg : Config ι (σ × τ)) (reg : Int32 → Option (Method σ τ))
    (s : Remote ι σ τ) : BufAct ι τ → σ
  | .act (.dispatch k t) =>
    match s.sys.jobs[k]? with
    | some ⟨_, pdu, .handler⟩ => objectAfter cfg reg pdu (s.obj, t)
    | _ => s.obj
  | _ => s.obj

/-- One step. -/
def Remote.step [DecidableEq ι] (cfg : Config ι (σ × τ)) (reg : Int32 → Option (Method σ τ))
    (s : Remote ι σ τ) : RemoteAct ι σ τ → Option (Remote ι σ τ)
  | .net a =>
    if ∀ j ∈ s.returning cfg a, j ∈ s.inside then
      (s.toBufSys.step cfg (a.on s.obj)).map fun t =>
        ⟨t, s.next cfg reg a, (s.returning cfg a).elim s.inside s.inside.erase⟩
    else none
  | .enter k =>
    match s.sys.jobs[k]? with
    | none => none
    | some j =>
      if inMethod cfg j = true ∧ s.inside.count j < s.sys.jobs.count j then
        some { s with inside := j :: s.inside }
      else none
  | .race x => if 2 ≤ s.inside.length then some { s with obj := x } else none

/-- A thread enters a method when no other is inside one, and no buffer is
freed that a dispatch has yet to send. -/
def Remote.Orderly (cfg : Config ι (σ × τ)) (s : Remote ι σ τ) : RemoteAct ι σ τ → Prop
  | .net a => s.toBufSys.KeepsUsed cfg (a.on s.obj)
  | .enter _ => s.inside = []
  | .race _ => True

instance [DecidableEq ι] (cfg : Config ι (σ × τ)) (s : Remote ι σ τ) (a : RemoteAct ι σ τ) :
    Decidable (s.Orderly cfg a) :=
  match a with
  | .net a => inferInstanceAs (Decidable (s.toBufSys.KeepsUsed cfg (a.on s.obj)))
  | .enter _ => inferInstanceAs (Decidable (s.inside = []))
  | .race _ => isTrue trivial

/-- The object, as the last run of a handler left it. -/
def object (cfg : Config ι (σ × τ)) (reg : Int32 → Option (Method σ τ)) (x₀ : σ) :
    List (Event ι (σ × τ)) → σ
  | [] => x₀
  | .executed pdu w _ _ :: _ => objectAfter cfg reg pdu w
  | _ :: log => object cfg reg x₀ log

/-- The methods are run on the object. -/
def OnObject (cfg : Config ι (σ × τ)) (reg : Int32 → Option (Method σ τ)) (x₀ : σ)
    (s : Sys ι (σ × τ)) : Action ι (σ × τ) → Prop
  | .dispatch _ w => w.1 = object cfg reg x₀ s.log
  | _ => True

/-- A call of a method has the types of the method, as the calls of
`extent_client.cc` have. -/
def Typed {Ω : Type} (cfg : Config ι (σ × τ)) (reg : Int32 → Option (Method σ τ)) :
    Action ι Ω → Prop
  | .call _ _ proc ts _ ret =>
    ∀ m, methods cfg reg proc.toInt32 = some m → ts = m.args ∧ ret = m.ret
  | _ => True

/-! ## What the clients see -/

/-- A call of client `i`. -/
abbrev Op (ι : Type) : Type := ι × Request

/-- What such a call returns, if it returns a result. -/
abbrev Res (o : Op ι) : Type := Int32 × o.2.ret.Val

/-- The calls that were made, and those that returned a result. -/
def Event.seen {Ω : Type} : Event ι Ω → Option (Seen (Op ι) Res)
  | .called i q => some (.invoked (i, q))
  | .returned i q b (some v) => some (.returned (i, q) (b, v))
  | _ => none

/-- The history, newest first. -/
def history {Ω : Type} (log : List (Event ι Ω)) : List (Seen (Op ι) Res) :=
  log.filterMap Event.seen

/-- What a call does to the object, and returns: what the method does. -/
inductive Does (meths : Int32 → Option (Method σ τ)) : σ → (o : Op ι) → Res o → σ → Prop
  | call (x : σ) (t : τ) (i : ι) (xid : ℕ) (proc : UInt32) (m : Method σ τ) (args : Vals m.args)
      (srvNonce : UInt32) (xidRep : ℕ) (hm : meths proc.toInt32 = some m) :
      Does meths x (i, ⟨xid, proc, m.args, args, m.ret, srvNonce, xidRep⟩)
        ((m.meth x t args).1, (m.meth x t args).2.1) (m.meth x t args).2.2

/-! ## One run of a method -/

/-- What was marshalled is there to be read. -/
theorem AtBody.at {u : Unmarshall} {body : List UInt8} (h : AtBody u body)
    (hsmall : rpcHeaderSz + body.length < 2 ^ 32) : Unmarshall.At u body where
  ok := h.ok
  fits := by rw [h.ind, h.sz]
  small := by rw [h.sz]; exact hsmall
  bytes := by rw [h.ind]; exact h.bytes

/-- A caller that gets the reply `rep` reads the result `v` from it. -/
def Decodes {Ω : Type} (cfg : Config ι Ω) (rep : List UInt8) (ret : Ty) (v : ret.Val) : Prop :=
  (framed rep).length ≤ maxPdu → ((replyOf cfg rep).get ret).2 = v

section

variable {cfg : Config ι (σ × τ)} {reg : Int32 → Option (Method σ τ)} {x₀ : σ}

theorem procs_eq (hreg : Serves cfg reg) (proc : Int32) :
    cfg.procs proc = (methods cfg reg proc).map Method.handler := by
  rw [Config.procs, methods]
  split
  · rfl
  · exact hreg proc

/-- The arguments that were marshalled are extracted. -/
theorem getAll_parse {q : Request} {i : ι} (hlen : (q.wire cfg i).length ≤ maxPdu) :
    ((Sys.parse cfg (q.wire cfg i)).1.getAll q.ts).1.okdone = true ∧
      ((Sys.parse cfg (q.wire cfg i)).1.getAll q.ts).2 = q.args := by
  have hbody := atBody_parse hlen
  rw [Marshall.body_putAll] at hbody
  rw [q.length_wire] at hlen
  have hmax : maxPdu < 2 ^ 32 := by decide
  obtain ⟨hadv, hval⟩ := Unmarshall.reads_getAll q.ts q.args (by omega) _ (hbody.at (by omega))
  refine ⟨?_, hval⟩
  rw [Unmarshall.okdone, hadv.ok, hadv.ind, hadv.sz, hbody.ok, hbody.ind, hbody.sz]
  simp

/-- The result that was marshalled is read. -/
theorem decodes_put (mem : ℕ → UInt8) (h : ReplyHeader) (ret : Ty) (v : ret.Val) :
    Decodes cfg (((Marshall.new mem).put ret v).packReplyHeader h).str ret v := by
  intro hlen
  have hputAll : (Marshall.new mem).put ret v = (Marshall.new mem).putAll [ret] (v, ()) := rfl
  have hbody : ((Marshall.new mem).put ret v).body = ret.enc v := by
    rw [hputAll, Marshall.body_putAll, encAll, encAll, List.append_nil]
  have hind : ((Marshall.new mem).put ret v).ind = rpcHeaderSz + (ret.enc v).length :=
    (Marshall.appends_put _ ret v).ind
  have h24 : rpcHeaderSz = 24 := rfl
  have hmax : maxPdu < 2 ^ 32 := by decide
  have hbytes : AtBody (replyOf cfg _) _ := atBody_replyOf (by omega) hlen
  rw [hbody] at hbytes
  rw [length_framed (by rw [length_str, Marshall.packReplyHeader_ind]; omega), length_str,
    Marshall.packReplyHeader_ind, hind] at hlen
  exact (Unmarshall.reads_get ret v (by omega) _ (hbytes.at (by omega))).2

/-- **One run of a method**: of the request of a call with its types, `fn`
does what the call does, and the reply says what it returns. -/
theorem exists_does {q : Request} {i : ι} {m : Method σ τ} (x : σ) (t : τ)
    (hlen : (q.wire cfg i).length ≤ maxPdu) (hm : methods cfg reg q.proc.toInt32 = some m)
    (hts : q.ts = m.args) (hret : q.ret = m.ret) :
    ∃ v, Does (methods cfg reg) x (i, q)
        ((m.handler.fn (x, t) (Sys.parse cfg (q.wire cfg i)).1 (.new cfg.mem)).ret, v)
        (objectAfter cfg reg (q.wire cfg i) (x, t)) ∧
      ∀ h, Decodes cfg ((m.handler.fn (x, t) (Sys.parse cfg (q.wire cfg i)).1
        (.new cfg.mem)).rep.packReplyHeader h).str q.ret v := by
  have hproc : (Sys.parse cfg (q.wire cfg i)).2.proc = q.proc.toInt32 := by
    rw [(parse_wire q i hlen).1, Request.hdr]
  obtain ⟨xid, proc, ts, args, ret, srvNonce, xidRep⟩ := q
  dsimp only at hm hts hret hproc
  subst hts hret
  obtain ⟨hok, hargs⟩ := getAll_parse hlen
  dsimp only at hok hargs
  generalize Request.wire ⟨xid, proc, m.args, args, m.ret, srvNonce, xidRep⟩ cfg i = pdu
    at hproc hok hargs ⊢
  have hfn : ∀ rep, m.handler.fn (x, t) (Sys.parse cfg pdu).1 rep =
      ⟨[args], (m.meth x t args).1, rep.put m.ret (m.meth x t args).2.1⟩ := by
    intro rep
    have hok' : ((Sys.parse cfg pdu).1.getAll m.handler.args).1.okdone = true := hok
    rw [← hargs, Handler.fn]
    dsimp only
    rw [if_neg (by rw [hok']; decide)]
    rfl
  have hafter : objectAfter cfg reg pdu (x, t) = (m.meth x t args).2.2 := by
    simp only [objectAfter, hproc, hm, hok, hargs, if_true]
  rw [hfn, hafter]
  exact ⟨_, .call x t i xid proc m args srvNonce xidRep hm, fun h => decodes_put cfg.mem h _ _⟩

/-! ## The order in which the methods were run -/

/-- The request that was executed, if the event is that one was. -/
def Event.ranOn {Ω : Type} : Event ι Ω → Option (List UInt8)
  | .executed pdu _ _ _ => some pdu
  | _ => none

/-- The requests that were executed, newest first. -/
def runs {Ω : Type} (log : List (Event ι Ω)) : List (List UInt8) := log.filterMap Event.ranOn

/-- A call has the types of its method, and a reply that is read is no
longer than the reader takes. -/
def Event.Fine (cfg : Config ι (σ × τ)) (reg : Int32 → Option (Method σ τ)) :
    Event ι (σ × τ) → Prop
  | .called _ q => ∀ m, methods cfg reg q.proc.toInt32 = some m → q.ts = m.args ∧ q.ret = m.ret
  | .replied _ _ pdu => pdu.length ≤ maxPdu
  | _ => True

/-- `lin` are the calls whose method was run, in the order of the runs, and
explains what the clients have seen. -/
structure Explained (cfg : Config ι (σ × τ)) (reg : Int32 → Option (Method σ τ)) (x₀ : σ)
    (log : List (Event ι (σ × τ))) (lin : List ((o : Op ι) × Res o)) : Prop where
  linearization : Linearization (Does (methods cfg reg)) x₀ (history log) lin
    (object cfg reg x₀ log)
  runs : lin.map (fun e => e.1.2.wire cfg e.1.1) = runs log
  /-- Each run of a method is of a call in `lin`, and the reply says what
  is said there. -/
  executed : ∀ pdu w b rep, .executed pdu w b rep ∈ log → ∃ i q v, .called i q ∈ log ∧
    pdu = q.wire cfg i ∧ pdu.length ≤ maxPdu ∧ ⟨(i, q), (b, v)⟩ ∈ lin ∧ Decodes cfg rep q.ret v
  fine : ∀ e ∈ log, e.Fine cfg reg

theorem mem_history_invoked {Ω : Type} {log : List (Event ι Ω)} {i : ι} {q : Request} :
    .invoked (i, q) ∈ history log ↔ .called i q ∈ log := by
  rw [history, List.mem_filterMap]
  constructor
  · rintro ⟨e, he, hseen⟩
    cases e with
    | called k p =>
      obtain ⟨rfl, rfl⟩ := Prod.mk.inj (Seen.invoked.inj (Option.some.inj hseen))
      exact he
    | returned k p b r => cases r <;> cases hseen
    | _ => cases hseen
  · exact fun h => ⟨_, h, rfl⟩

variable {log : List (Event ι (σ × τ))} {lin : List ((o : Op ι) × Res o)}

theorem explained_nil : Explained cfg reg x₀ [] [] where
  linearization := linearization_nil
  runs := rfl
  executed := by simp
  fine := by simp

/-- No method is run. -/
theorem Explained.cons (h : Explained cfg reg x₀ log lin) {e : Event ι (σ × τ)}
    (hfine : e.Fine cfg reg) (hran : e.ranOn = none)
    (hlin : Linearization (Does (methods cfg reg)) x₀ (history (e :: log)) lin
      (object cfg reg x₀ log)) : Explained cfg reg x₀ (e :: log) lin where
  linearization := by
    cases e with
    | executed => cases hran
    | _ => exact hlin
  runs := by
    rw [Rpc.runs, List.filterMap_cons_none hran]
    exact h.runs
  executed := by
    intro pdu w b rep hmem
    rcases List.mem_cons.1 hmem with rfl | hmem
    · cases hran
    · obtain ⟨i, q, v, hq, hrest⟩ := h.executed pdu w b rep hmem
      exact ⟨i, q, v, List.mem_cons_of_mem _ hq, hrest⟩
  fine := List.forall_mem_cons.2 ⟨hfine, h.fine⟩

/-- Nothing is seen by a client either. -/
theorem Explained.unseen (h : Explained cfg reg x₀ log lin) {e : Event ι (σ × τ)}
    (hfine : e.Fine cfg reg) (hran : e.ranOn = none) (hseen : e.seen = none) :
    Explained cfg reg x₀ (e :: log) lin := by
  refine h.cons hfine hran ?_
  rw [history, List.filterMap_cons_none hseen]
  exact h.linearization

/-- A method is run. -/
theorem Explained.run (h : Explained cfg reg x₀ log lin) {i : ι} {q : Request} {m : Method σ τ}
    {w : σ × τ} (hq : .called i q ∈ log) (hlen : (q.wire cfg i).length ≤ maxPdu)
    (hm : methods cfg reg q.proc.toInt32 = some m) (hw : w.1 = object cfg reg x₀ log)
    (hdr : ReplyHeader) :
    ∃ lin', Explained cfg reg x₀ (.executed (q.wire cfg i) w
      (m.handler.fn w (Sys.parse cfg (q.wire cfg i)).1 (.new cfg.mem)).ret
      ((m.handler.fn w (Sys.parse cfg (q.wire cfg i)).1 (.new cfg.mem)).rep.packReplyHeader
        hdr).str :: log) lin' := by
  obtain ⟨x, t⟩ := w
  obtain rfl : x = object cfg reg x₀ log := hw
  obtain ⟨hts, hret⟩ := h.fine _ hq m hm
  obtain ⟨v, hdoes, hdec⟩ := exists_does (object cfg reg x₀ log) t hlen hm hts hret
  refine ⟨_, h.linearization.takeEffect (mem_history_invoked.2 hq) hdoes, ?_,
    fun pdu w b rep hmem => ?_, List.forall_mem_cons.2 ⟨trivial, h.fine⟩⟩
  · rw [List.map_cons, h.runs]
    rfl
  · rcases List.mem_cons.1 hmem with heq | hmem
    · obtain ⟨rfl, rfl, rfl, rfl⟩ := Event.executed.inj heq
      exact ⟨i, q, v, List.mem_cons_of_mem _ hq, rfl, hlen, List.mem_cons_self, hdec hdr⟩
    · obtain ⟨k, p, v', hp, hpdu, hsmall, hin, hdec'⟩ := h.executed pdu w b rep hmem
      exact ⟨k, p, v', List.mem_cons_of_mem _ hp, hpdu, hsmall, List.mem_cons_of_mem _ hin, hdec'⟩

/-- Calls with the same request on the wire are one call. -/
theorem eq_of_wire_eq {s : Sys ι (σ × τ)} {i k : ι} {q p : Request} (hb : Based cfg i s)
    (hq : .called i q ∈ s.log) (hp : .called k p ∈ s.log)
    (hlen : (p.wire cfg k).length ≤ maxPdu) (heq : q.wire cfg i = p.wire cfg k) :
    k = i ∧ p = q := by
  have hlen' : (q.wire cfg i).length ≤ maxPdu := by
    rw [heq]
    exact hlen
  have hhdr : q.hdr (cfg.cltNonce i) = p.hdr (cfg.cltNonce k) := by
    have h := (parse_wire q i hlen').1
    rw [heq] at h
    exact h.symm.trans (parse_wire p k hlen).1
  have hnonce : cfg.cltNonce i = cfg.cltNonce k := by
    have h := congrArg ReqHeader.cltNonce hhdr
    rwa [Request.hdr, Request.hdr] at h
  obtain rfl : k = i := hb.distinct.eq_of_eq k hnonce.symm
  have hxid := congrArg (fun h => h.xid.toUInt32.toNat) hhdr
  rw [hb.xid_hdr hq, hb.xid_hdr hp] at hxid
  exact ⟨rfl, hb.ledger.unique p q hp hq hxid.symm⟩

/-- A result comes with a value that is not negative. -/
theorem callResult_nonneg {ca : Caller ι} {v : ca.q.ret.Val}
    (h : (Sys.callResult ca).2 = some v) : 0 ≤ (Sys.callResult ca).1 := by
  unfold Sys.callResult at h ⊢
  dsimp only at h ⊢
  generalize (if ca.done = true then ca.intret else timeoutFailure) = intret at h ⊢
  by_cases hneg : intret < 0
  · rw [if_pos hneg] at h
    cases h
  · rw [if_neg hneg] at h ⊢
    by_cases hok : (ca.un.get ca.q.ret).1.okdone = true
    · rw [if_pos hok]
      exact Int32.not_lt.1 hneg
    · rw [if_neg hok] at h
      cases h

variable {s s' : Sys ι (σ × τ)} {a : Action ι (σ × τ)}

/-- A call returns. -/
theorem Explained.finish {i : ι} {ca : Caller ι} (h : Explained cfg reg x₀ s.log lin)
    (hb : Based cfg i s) (hans : Answered cfg i s') (hca : ca ∈ (s.clients i).calls)
    (hlog : s'.log = .returned i ca.q (Sys.callResult ca).1 (Sys.callResult ca).2 :: s.log) :
    Explained cfg reg x₀ s'.log lin := by
  cases hr : (Sys.callResult ca).2 with
  | none =>
    rw [hlog, hr]
    exact h.unseen trivial rfl rfl
  | some v =>
    have hmem : .returned i ca.q (Sys.callResult ca).1 (some v) ∈ s'.log := by
      rw [hlog, hr]
      exact List.mem_cons_self
    obtain ⟨f, w, rep, hmade⟩ := hans.returned _ _ _ hmem (callResult_nonneg hr)
    rw [hlog] at hmade
    have hexec := (List.mem_cons.1 hmade.executed).resolve_left (by simp)
    have hrep := h.fine _ ((List.mem_cons.1 hmade.replied).resolve_left (by simp))
    obtain ⟨k, p, v', hp, hpdu, hlen, hin, hdec⟩ := h.executed _ _ _ _ hexec
    obtain ⟨rfl, rfl⟩ := eq_of_wire_eq hb (hb.ledger.caller ca hca) hp (hpdu ▸ hlen) hpdu
    obtain rfl : v = v' := (Option.some.inj hmade.value).trans (hdec hrep)
    rw [hlog, hr]
    exact h.cons trivial rfl (h.linearization.answer hin)

variable [DecidableEq ι]

/-- What a call leaves in the record. -/
theorem log_call {i : ι} {bind : Bool} {proc : UInt32} {ts : List Ty} {args : Vals ts} {ret : Ty}
    (h : s.call cfg i bind proc ts args ret = some s') :
    s'.log = s.log ∨
      ∃ q, s'.log = .called i q :: s.log ∧ q.proc = proc ∧ q.ts = ts ∧ q.ret = ret := by
  simp only [Sys.call] at h
  split at h
  · cases h
    exact .inl rfl
  · cases h
    exact .inr ⟨_, rfl, rfl, rfl, rfl⟩

/-- **One step.** -/
theorem Explained.step (hreg : Serves cfg reg) (h : Explained cfg reg x₀ s.log lin)
    (hb : ∀ i, Based cfg i s) (hans : ∀ i, Answered cfg i s') (hobj : OnObject cfg reg x₀ s a)
    (htyped : Typed cfg reg a) (hs : s.step cfg a = some s') :
    ∃ lin', Explained cfg reg x₀ s'.log lin' := by
  have hm := Sys.move_of_step hs
  cases hm with
  | call i bind proc ts args ret ca hxid =>
    have hnew : .called i ca.q ∉ s.log := by
      intro hmem
      have hlt := ((hb i).ledger.called_lt ca.q hmem).2
      omega
    rcases log_call hs with heq | ⟨q, heq, rfl, rfl, rfl⟩
    · exact absurd heq (List.cons_ne_self _ _)
    · obtain ⟨-, rfl⟩ := Event.called.inj (List.cons_eq_cons.1 heq).1
      exact ⟨lin, h.cons htyped rfl
        (h.linearization.invoke fun hmem => hnew (mem_history_invoked.1 hmem))⟩
  | finish i xid ca binds hca htr =>
    exact ⟨lin, h.finish (hb i) (hans i) (findCall_some hca).1 rfl⟩
  | gotPdu k c b rest log xid hperm hlen hok hxid hlog =>
    rcases Sys.log_gotPdu hlog with rfl | rfl
    · exact ⟨lin, h⟩
    · exact ⟨lin, h.unseen hlen rfl rfl⟩
  | check => exact ⟨lin, h.unseen trivial rfl rfl⟩
  | handler k w j rest f b hpick hperm hphase hf hret hrep =>
    obtain ⟨q, hq⟩ := (hb j.conn.owner).job j (List.mem_of_getElem? hpick)
    rw [procs_eq hreg, hq.header_eq] at hf
    obtain ⟨m, hm, rfl⟩ := Option.map_eq_some_iff.1 hf
    rw [hrep, hq.pdu]
    exact h.run hq.called (hq.pdu ▸ hq.small) hm hobj _
  | send k w j rest c st b =>
    rcases Sys.log_send cfg s j rest c b with heq | heq
    · exact ⟨lin, heq ▸ h⟩
    · exact ⟨lin, heq ▸ h.unseen trivial rfl rfl⟩
  | _ => exact ⟨lin, h⟩

/-- A state in which what the clients have seen is explained. -/
structure Ordered (cfg : Config ι (σ × τ)) (reg : Int32 → Option (Method σ τ)) (x₀ : σ)
    (s : Sys ι (σ × τ)) : Prop where
  based : ∀ i, Based cfg i s
  answered : ∀ i, Answered cfg i s
  explained : ∃ lin, Explained cfg reg x₀ s.log lin

theorem Ordered.step (hreg : Serves cfg reg) (h : Ordered cfg reg x₀ s)
    (hfew : ∀ i, FewCalls i s a) (hobj : OnObject cfg reg x₀ s a) (htyped : Typed cfg reg a)
    (hs : s.step cfg a = some s') : Ordered cfg reg x₀ s' := by
  have hm := Sys.move_of_step hs
  have hans : ∀ i, Answered cfg i s' := fun i => (h.answered i).step (h.based i) hm
  obtain ⟨lin, hlin⟩ := h.explained
  exact ⟨fun i => (h.based i).step (hfew i) hm, hans, hlin.step hreg h.based hans hobj htyped hs⟩

/-- **Every run.** -/
theorem ordered_of_exec {acts : List (Action ι (σ × τ))} (hreg : Serves cfg reg)
    (hclients : ∀ i, Regular cfg i acts) (htyped : ∀ a ∈ acts, Typed cfg reg a)
    (hobj : Steps (Sys.step cfg) (OnObject cfg reg x₀) .init acts)
    (hexec : exec (Sys.step cfg) .init acts = some s) : Ordered cfg reg x₀ s := by
  have hfew := Steps.forall fun i => (hclients i).steps_fewCalls
  have htypes : Steps (Sys.step cfg) (fun _ a => Typed cfg reg a) .init acts :=
    steps_of_forall fun a ha _ => htyped a ha
  refine exec_invariant_of_steps (fun s a s' h hC hs => h.step hreg hC.1 hC.2.1 hC.2.2 hs) ?_
    (hfew.and (hobj.and htypes)) hexec
  exact ⟨fun i => based_init (hclients i).toDistinct, fun i => answered_init, [], explained_nil⟩

/-! ## Each once -/

omit [DecidableEq ι] in
theorem countP_isRun (cfg : Config ι (σ × τ)) (n : UInt32) (x : ℕ) (log : List (Event ι (σ × τ))) :
    log.countP (Event.isRun cfg n x) =
      (runs log).countP fun pdu => decide ((Sys.parse cfg pdu).2.IsFor n x) := by
  rw [runs, List.countP_filterMap]
  refine List.countP_congr fun e _ => ?_
  cases e <;> simp [Event.isRun, Event.ranOn]

omit [DecidableEq ι] in
/-- A request that was executed is for its call. -/
theorem Explained.isFor {lin : List ((o : Op ι) × Res o)} (h : Explained cfg reg x₀ s.log lin)
    {i : ι} {q : Request} (hb : Based cfg i s) (hcalled : .called i q ∈ s.log)
    (hran : q.wire cfg i ∈ Rpc.runs s.log) :
    (Sys.parse cfg (q.wire cfg i)).2.IsFor (cfg.cltNonce i) q.xid := by
  have hlen : (q.wire cfg i).length ≤ maxPdu := by
    obtain ⟨e, he, hran⟩ := List.mem_filterMap.1 hran
    cases e with
    | executed pdu w b rep =>
      obtain ⟨_, _, _, -, -, hlen, -⟩ := h.executed pdu w b rep he
      exact Option.some.inj hran ▸ hlen
    | _ => cases hran
  rw [(parse_wire q i hlen).1]
  exact ⟨rfl, hb.xid_hdr hcalled _⟩

omit [DecidableEq ι] in
/-- A call in the order was executed. -/
theorem Explained.one_le {lin : List ((o : Op ι) × Res o)} (h : Explained cfg reg x₀ s.log lin)
    {i : ι} {q : Request} (hb : Based cfg i s) (hmem : (i, q) ∈ lin.map Sigma.fst) :
    1 ≤ s.log.countP (Event.isRun cfg (cfg.cltNonce i) q.xid) := by
  have hcalled : .called i q ∈ s.log :=
    mem_history_invoked.1 (h.linearization.invoked (i, q) hmem)
  obtain ⟨e, he, heq⟩ := List.mem_map.1 hmem
  have hran : q.wire cfg i ∈ Rpc.runs s.log := by
    rw [← h.runs]
    exact List.mem_map.2 ⟨e, he, by rw [heq]⟩
  rw [countP_isRun]
  exact List.countP_pos_iff.2 ⟨_, hran, decide_eq_true (h.isFor hb hcalled hran)⟩

omit [DecidableEq ι] in
/-- Where each call is executed at most once, each is in the order at most
once. -/
theorem Explained.nodup {lin : List ((o : Op ι) × Res o)} (h : Explained cfg reg x₀ s.log lin)
    (hb : ∀ i, Based cfg i s)
    (honce : ∀ i x, s.log.countP (Event.isRun cfg (cfg.cltNonce i) x) ≤ 1) :
    (lin.map Sigma.fst).Nodup := by
  rw [List.nodup_iff_sublist]
  rintro ⟨i, q⟩ hsub
  have hcalled : .called i q ∈ s.log :=
    mem_history_invoked.1 (h.linearization.invoked (i, q) (hsub.subset (by simp)))
  -- its request was executed twice
  have htwice : [q.wire cfg i, q.wire cfg i].Sublist (Rpc.runs s.log) := by
    have hmap := hsub.map fun o => o.2.wire cfg o.1
    rw [List.map_map] at hmap
    exact h.runs ▸ hmap
  have hfor := h.isFor (hb i) hcalled (htwice.subset List.mem_cons_self)
  have hle := honce i q.xid
  have hge := htwice.countP_le (p := fun pdu =>
    decide ((Sys.parse cfg pdu).2.IsFor (cfg.cltNonce i) q.xid))
  rw [← countP_isRun] at hge
  simp only [List.countP_cons, List.countP_nil, hfor, decide_true, if_true] at hge
  omega

/-! ## Runs with the object -/

omit [DecidableEq ι] in
theorem log_start (cfg : Config ι (σ × τ)) (s : Sys ι (σ × τ)) (j : Job ι) (rest : List (Job ι)) :
    (s.start cfg j rest).log = s.log := by
  simp only [Sys.start]
  repeat' split
  all_goals rfl

/-- What a step of a job records of the object. -/
theorem object_dispatch {k : ℕ} {w : σ × τ} (hs : s.dispatch cfg k w = some s') :
    object cfg reg x₀ s'.log = match s.jobs[k]? with
      | some ⟨_, pdu, .handler⟩ => objectAfter cfg reg pdu w
      | _ => object cfg reg x₀ s.log := by
  unfold Sys.dispatch at hs
  split at hs
  · cases hs
  · rename_i j hj
    obtain ⟨c, pdu, phase⟩ := j
    rw [hj]
    cases phase with
    | queued =>
      obtain rfl := Option.some.inj hs
      rw [log_start]
    | check =>
      obtain rfl := Option.some.inj hs
      rfl
    | handler =>
      obtain ⟨ret, b, hlog⟩ := log_runHandler hs
      rw [hlog]
      rfl
    | addReply b =>
      obtain rfl := Option.some.inj hs
      rfl
    | choose b =>
      dsimp only [Sys.choose] at hs
      split at hs
      · obtain ⟨_, -, rfl⟩ := Option.map_eq_some_iff.1 hs
        rfl
      · obtain rfl := Option.some.inj hs
        rfl
    | send c st b =>
      obtain rfl := Option.some.inj hs
      rcases Sys.log_send cfg s _ (s.jobs.eraseIdx k) c b with hlog | hlog
      · rw [hlog]
      · rw [hlog]
        rfl

/-- Other steps record nothing of it. -/
theorem object_move (hm : Sys.Move cfg s a s') (ha : ∀ k w, a ≠ .dispatch k w) :
    object cfg reg x₀ s'.log = object cfg reg x₀ s.log := by
  cases hm with
  | handler k w => exact absurd rfl (ha k w)
  | send k w => exact absurd rfl (ha k w)
  | gotPdu k c b rest log xid hperm hlen hok hxid hlog =>
    rcases Sys.log_gotPdu hlog with rfl | rfl
    · rfl
    · rfl
  | _ => rfl

/-- The object of the state is the one the record says. -/
theorem next_eq {r : Remote ι σ τ} {a : Action ι τ} (hobj : r.obj = object cfg reg x₀ r.sys.log)
    (hs : r.sys.step cfg (a.on r.obj) = some s') :
    r.next cfg reg (.act a) = object cfg reg x₀ s'.log := by
  cases a with
  | dispatch k t =>
    rw [object_dispatch hs, ← hobj]
    rfl
  | _ =>
    rw [object_move (Sys.move_of_step hs) (by intro _ _ heq; cases heq)]
    exact hobj

/-- An action of the system: what it does to the system, to the object, and
to who is inside. -/
theorem Remote.step_net {r r' : Remote ι σ τ} {a : BufAct ι τ}
    (h : r.step cfg reg (.net a) = some r') :
    r.toBufSys.step cfg (a.on r.obj) = some r'.toBufSys ∧ r'.obj = r.next cfg reg a ∧
      r'.inside = (r.returning cfg a).elim r.inside r.inside.erase := by
  rw [Remote.step] at h
  split at h
  · obtain ⟨t, ht, rfl⟩ := Option.map_eq_some_iff.1 h
    exact ⟨ht, rfl, rfl⟩
  · cases h

/-- The entry of a thread changes nothing else. -/
theorem Remote.step_enter {r r' : Remote ι σ τ} {k : ℕ}
    (h : r.step cfg reg (.enter k) = some r') :
    ∃ j, inMethod cfg j = true ∧ r.inside.count j < r.sys.jobs.count j ∧
      r' = { r with inside := j :: r.inside } := by
  rw [Remote.step] at h
  split at h
  · cases h
  · split at h
    · rename_i j _ henter
      exact ⟨j, henter.1, henter.2, (Option.some.inj h).symm⟩
    · cases h

theorem Remote.step_act {r r' : Remote ι σ τ} {a : Action ι τ}
    (h : r.step cfg reg (.net (.act a)) = some r') :
    r.sys.step cfg (a.on r.obj) = some r'.sys := by
  obtain ⟨s', hs', heq⟩ := Option.map_eq_some_iff.1 (Remote.step_net h).1
  rw [hs', ← heq]

/-- Orderly runs: at most one thread is inside a method, and nothing that
was freed is used. -/
structure Remote.Tidy (cfg : Config ι (σ × τ)) (r : Remote ι σ τ) : Prop where
  intact : ∃ own, Intact cfg own r.toBufSys
  one : r.inside.length ≤ 1

/-- **What an orderly step can do**: it is one of the system in which a
buffer is its contents, or a thread enters a method. -/
theorem Remote.Tidy.step {r r' : Remote ι σ τ} {a : RemoteAct ι σ τ} (h : r.Tidy cfg)
    (horderly : r.Orderly cfg a) (hs : r.step cfg reg a = some r') :
    r'.Tidy cfg ∧ ((∃ b, a = .net (.act b) ∧ r.sys.step cfg (b.on r.obj) = some r'.sys ∧
        r'.obj = r.next cfg reg (.act b)) ∨
      (∃ k, a = .enter k) ∧ r'.toBufSys = r.toBufSys ∧ r'.obj = r.obj) := by
  obtain ⟨own, hintact⟩ := h.intact
  cases a with
  | net a =>
    obtain ⟨ht, hobj, hinside⟩ := Remote.step_net hs
    cases a with
    | reused k b =>
      rw [BufAct.on, hintact.not_reused] at ht
      cases ht
    | act b =>
      obtain ⟨s', hs', heq⟩ := Option.map_eq_some_iff.1 ht
      have hlen : r'.inside.length ≤ r.inside.length := by
        rw [hinside]
        cases r.returning cfg (.act b) with
        | none => exact le_rfl
        | some j => exact List.length_erase_le
      exact ⟨⟨heq ▸ hintact.act horderly hs', hlen.trans h.one⟩,
        .inl ⟨b, rfl, Remote.step_act hs, hobj⟩⟩
  | enter k =>
    obtain ⟨j, -, -, rfl⟩ := Remote.step_enter hs
    refine ⟨⟨⟨own, hintact⟩, ?_⟩, .inr ⟨⟨k, rfl⟩, rfl, rfl⟩⟩
    rw [List.length_cons, show r.inside = [] from horderly]
    exact le_rfl
  | race x =>
    rw [Remote.step, if_neg (by have := h.one; omega)] at hs
    cases hs

/-- An orderly run with the object is a run of the system, in which the
methods are run on the object. -/
theorem exists_exec {r t : Remote ι σ τ} {acts : List (RemoteAct ι σ τ)} (htidy : r.Tidy cfg)
    (hobj : r.obj = object cfg reg x₀ r.sys.log)
    (horderly : Steps (Remote.step cfg reg) (Remote.Orderly cfg) r acts)
    (hexec : exec (Remote.step cfg reg) r acts = some t) :
    ∃ acts', exec (Sys.step cfg) r.sys acts' = some t.sys ∧
      Steps (Sys.step cfg) (OnObject cfg reg x₀) r.sys acts' ∧
      t.obj = object cfg reg x₀ t.sys.log ∧
      List.Forall₂ (fun a a' => ∃ x, a' = a.on x) (netActs acts) acts' := by
  induction acts generalizing r with
  | nil =>
    obtain rfl := Option.some.inj hexec
    exact ⟨[], rfl, trivial, hobj, .nil⟩
  | cons a acts ih =>
    obtain ⟨r', hr, hlater⟩ := exec_cons_eq_some.1 hexec
    obtain ⟨htidy', ⟨b, rfl, hsys, hnext⟩ | ⟨⟨k, rfl⟩, heq, hsame⟩⟩ := htidy.step horderly.1 hr
    · obtain ⟨acts', hexec', hsteps, hlast, hacts⟩ :=
        ih htidy' (hnext.trans (next_eq hobj hsys)) (horderly.2 _ hr) hlater
      refine ⟨b.on r.obj :: acts', exec_cons_eq_some.2 ⟨_, hsys, hexec'⟩, ⟨?_, ?_⟩, hlast,
        .cons ⟨_, rfl⟩ hacts⟩
      · cases b with
        | dispatch k t => exact hobj
        | _ => trivial
      · intro s' hs'
        obtain rfl := Option.some.inj (hsys.symm.trans hs')
        exact hsteps
    · rw [← heq]
      exact ih htidy' (by rw [hsame, heq]; exact hobj) (horderly.2 _ hr) hlater

/-- What is known of the actions is known of them with the object. -/
theorem regular_of_forall₂ {acts : List (Action ι τ)} {acts' : List (Action ι (σ × τ))} {i : ι}
    (hdist : Distinct cfg i) (hfew : acts.countP (Action.isCallOf i) < 2 ^ 32 - 1)
    (h : List.Forall₂ (fun a a' => ∃ x : σ, a' = a.on x) acts acts') : Regular cfg i acts' := by
  refine ⟨hdist, ?_⟩
  suffices heq : acts'.countP (Action.isCallOf i) = acts.countP (Action.isCallOf i) by omega
  clear hfew
  induction h with
  | nil => rfl
  | cons ha _ ih =>
    obtain ⟨x, rfl⟩ := ha
    rename_i a acts acts' _
    have hcall : (a.on x).isCallOf i = a.isCallOf i := by
      cases a <;> rfl
    rw [List.countP_cons, List.countP_cons, ih, hcall]

omit [DecidableEq ι] in
theorem typed_of_forall₂ {acts : List (Action ι τ)} {acts' : List (Action ι (σ × τ))}
    (htyped : ∀ a ∈ acts, Typed cfg reg a)
    (h : List.Forall₂ (fun a a' => ∃ x : σ, a' = a.on x) acts acts') :
    ∀ a' ∈ acts', Typed cfg reg a' := by
  induction h with
  | nil => simp
  | cons ha _ ih =>
    obtain ⟨x, rfl⟩ := ha
    rename_i a acts acts' _
    have hfirst := htyped a List.mem_cons_self
    refine List.forall_mem_cons.2 ⟨?_, ih fun b hb => htyped b (List.mem_cons_of_mem a hb)⟩
    cases a <;> exact hfirst

/-- Runs of the system in which the methods are run on the object. -/
theorem linearizable_of_exec {acts : List (Action ι (σ × τ))} (hreg : Serves cfg reg)
    (hclients : ∀ i, Regular cfg i acts) (htyped : ∀ a ∈ acts, Typed cfg reg a)
    (hobj : Steps (Sys.step cfg) (OnObject cfg reg x₀) .init acts)
    (hexec : exec (Sys.step cfg) .init acts = some s)
    (hstale : ∀ i, NoStale (cfg.cltNonce i) (arrivals s.log)) :
    Linearizable (Does (methods cfg reg)) x₀ (history s.log) (object cfg reg x₀ s.log) := by
  have h := ordered_of_exec hreg hclients htyped hobj hexec
  obtain ⟨lin, hlin⟩ := h.explained
  refine ⟨lin, hlin.nodup h.based fun i x => ?_, hlin.linearization⟩
  have honce := (hclients i).once hexec (hstale i) x
  omega

omit [DecidableEq ι] in
theorem Remote.tidy_init : (Remote.init x₀ : Remote ι σ τ).Tidy cfg :=
  ⟨⟨fun _ => (0, 0), intact_init _⟩, Nat.zero_le 1⟩

/-- **Remote calls are linearizable.** In every orderly run, the calls that
the clients make, and those that return a result, are in an order in which
the object itself gives these results, and none is before one that returned
before it was made; the object is as these calls leave it. The network may
double, lose and reorder messages and connections may die, so long as no
stale copy of a request arrives. -/
theorem remote_linearizable {acts : List (RemoteAct ι σ τ)} {t : Remote ι σ τ}
    (hreg : Serves cfg reg) (hdist : ∀ i, Distinct cfg i)
    (hfew : ∀ i, (netActs acts).countP (Action.isCallOf i) < 2 ^ 32 - 1)
    (htyped : ∀ a ∈ netActs acts, Typed cfg reg a)
    (horderly : Steps (Remote.step cfg reg) (Remote.Orderly cfg) (.init x₀) acts)
    (hexec : exec (Remote.step cfg reg) (.init x₀) acts = some t)
    (hstale : ∀ i, NoStale (cfg.cltNonce i) (arrivals t.sys.log)) :
    Linearizable (Does (methods cfg reg)) x₀ (history t.sys.log) t.obj := by
  obtain ⟨acts', hexec', hobj, hlast, hacts⟩ :=
    exists_exec Remote.tidy_init rfl horderly hexec
  have hclients : ∀ i, Regular cfg i acts' := fun i => regular_of_forall₂ (hdist i) (hfew i) hacts
  rw [hlast]
  exact linearizable_of_exec hreg hclients (typed_of_forall₂ htyped hacts) hobj hexec' hstale

end

/-! ## The extent server -/

/-- What a method of the extent server reads besides the extents: the
clock, and what is in a result that nothing was assigned to. -/
structure Ambient where
  now : UInt32
  r : Int32
  a : Attr

/-- `extent_protocol::xxstatus`, as an `int`. -/
def statusCode : Status → Int32
  | .ok => 0
  | .rpcerr => 1
  | .noent => 2
  | .ioerr => 3
  | .fbig => 4

/-- `extent_server::put`, as a method. -/
def putMethod : Method ExtentServer Ambient where
  args := [.basic .ulonglong, .basic .string]
  ret := .basic .int
  meth := fun x t v =>
    let r := x.put v.1 v.2.1 t.now
    (statusCode r.2, t.r, r.1)

/-- `extent_server::get`. -/
def getMethod : Method ExtentServer Ambient where
  args := [.basic .ulonglong]
  ret := .basic .string
  meth := fun x _ v =>
    let r := x.get v.1
    (statusCode r.1, r.2, x)

/-- `extent_server::getattr`. -/
def getattrMethod : Method ExtentServer Ambient where
  args := [.basic .ulonglong]
  ret := .attr
  meth := fun x t v =>
    let r := x.getattr v.1 t.a
    (statusCode r.1, r.2, x)

/-- `extent_server::remove`. -/
def removeMethod : Method ExtentServer Ambient where
  args := [.basic .ulonglong]
  ret := .basic .int
  meth := fun x t v =>
    let r := x.remove v.1
    (statusCode r.2, t.r, r.1)

/-- `extent_server::setattr`. -/
def setattrMethod : Method ExtentServer Ambient where
  args := [.basic .ulonglong, .attr]
  ret := .basic .int
  meth := fun x t v =>
    let r := x.setattr v.1 v.2.1 t.now
    (statusCode r.2, t.r, r.1)

/-- What `extent_smain.cc` registers. -/
def extentMethods (proc : Int32) : Option (Method ExtentServer Ambient) :=
  if proc = 0x6001 then some putMethod
  else if proc = 0x6002 then some getMethod
  else if proc = 0x6003 then some getattrMethod
  else if proc = 0x6004 then some removeMethod
  else if proc = 0x6005 then some setattrMethod
  else none

/-- Where every request arrives once, none is stale. -/
theorem noStale_of_nodup {hs : List ReqHeader} (n : UInt32)
    (h : (hs.map fun h => (h.cltNonce, h.xid.toUInt32.toNat)).Nodup) : NoStale n hs := by
  intro x late ack early hsub hearly _ hlate
  have hpair : [late, early].Sublist hs :=
    (((List.Sublist.refl [early]).cons ack).cons_cons late).trans hsub
  have hmap := hpair.map fun h : ReqHeader => (h.cltNonce, h.xid.toUInt32.toNat)
  simp only [List.map_cons, List.map_nil, hlate.1, hlate.2, hearly.1, hearly.2] at hmap
  exact List.nodup_iff_sublist.1 h _ hmap

/-- One client of an extent server. -/
def extentConfig : Config Unit (ExtentServer × Ambient) where
  cltNonce := fun _ => 7
  retrans := fun _ => true
  nonce := 9
  handlers := fun proc => (extentMethods proc).map Method.handler
  mem := fun _ => 0

/-- The server takes `k` steps with the job that came last. -/
def works (k : ℕ) : List (RemoteAct Unit ExtentServer Ambient) :=
  List.replicate k (.net (.act (.dispatch 0 ⟨100, 0, ⟨0, 0, 0, 0⟩⟩)))

/-- The call `x` is transmitted, and the server answers. A call but that of
`bind` enters a method. -/
def answered (bind : Bool) (x : ℕ) : List (RemoteAct Unit ExtentServer Ambient) :=
  [.net (.act (.transmit () x true)), .net (.act (.recv 0))] ++ works 2 ++
    (if bind then [] else [.enter 0]) ++ works 4 ++ [.net (.act (.gotPdu 0))]

/-- The client makes the call `x`, the server answers, and the call
returns. -/
def callOf (proc : UInt32) (x : ℕ) (ts : List Ty) (args : Vals ts) (ret : Ty) :
    List (RemoteAct Unit ExtentServer Ambient) :=
  .net (.act (.call () (proc = bindProc) proc ts args ret)) ::
    answered (proc = bindProc) x ++ [.net (.act (.finish () x))]

/-- The client binds and puts an extent. -/
def putRun : List (RemoteAct Unit ExtentServer Ambient) :=
  callOf bindProc 1 [.basic .int] (0, ()) (.basic .int) ++ .net (.act (.bound () 0)) ::
    callOf 0x6001 2 [.basic .ulonglong, .basic .string] (5, [104, 105], ()) (.basic .int)

/-- There is no call in it. -/
theorem typed_answered (bind : Bool) (x : ℕ) :
    ∀ a ∈ netActs (answered bind x), Typed extentConfig extentMethods a := by
  cases bind with
  | false =>
    intro a ha
    repeat' (rcases List.mem_cons.1 ha with rfl | ha; trivial)
    cases ha
  | true =>
    intro a ha
    repeat' (rcases List.mem_cons.1 ha with rfl | ha; trivial)
    cases ha

theorem typed_callOf {proc : UInt32} {m : Method ExtentServer Ambient} (x : ℕ)
    (args : Vals m.args) (hm : methods extentConfig extentMethods proc.toInt32 = some m) :
    ∀ a ∈ netActs (callOf proc x m.args args m.ret), Typed extentConfig extentMethods a := by
  refine List.forall_mem_cons.2 ⟨fun m' hm' => ?_, ?_⟩
  · obtain rfl := Option.some.inj (hm.symm.trans hm')
    exact ⟨rfl, rfl⟩
  · show ∀ a ∈ netActs (answered (proc = bindProc) x ++ [.net (.act (.finish () x))]), _
    rw [netActs, List.filterMap_append]
    exact List.forall_mem_append.2 ⟨typed_answered _ x, List.forall_mem_singleton.2 trivial⟩

/-- The calls of the client are in such an order, and the extent is there
in the end. -/
theorem remote_linearizable_putRun : ∃ t,
    exec (Remote.step extentConfig extentMethods) (.init (.new 0)) putRun = some t ∧
    t.obj.contents 5 = some [104, 105] ∧
    Linearizable (Does (methods extentConfig extentMethods)) (.new 0) (history t.sys.log) t.obj := by
  have h : (exec (Remote.step extentConfig extentMethods) (.init (.new 0)) putRun).any (fun t =>
      decide (t.obj.contents 5 = some [104, 105]) && decide
        ((arrivals t.sys.log).map fun h => (h.cltNonce, h.xid.toUInt32.toNat)).Nodup) = true := by
    decide +kernel
  obtain ⟨t, ht, hany⟩ := (Option.any_eq_true _ _).1 h
  obtain ⟨hcontents, hnodup⟩ := Bool.and_eq_true_iff.1 hany
  have hdist : ∀ i, Distinct extentConfig i :=
    fun _ => ⟨by simp [extentConfig], fun _ _ => rfl⟩
  have hbind := typed_callOf 1 (0, ())
    (show methods extentConfig extentMethods bindProc.toInt32 = some (bindMethod 9) from rfl)
  have hput := typed_callOf 2 (5, [104, 105], ())
    (show methods extentConfig extentMethods (0x6001 : UInt32).toInt32 = some putMethod from rfl)
  refine ⟨t, ht, of_decide_eq_true hcontents, remote_linearizable (fun _ => rfl) hdist ?_ ?_
    (by decide +kernel) ht fun _ => noStale_of_nodup _ (of_decide_eq_true hnodup)⟩
  · intro i
    exact Nat.lt_of_le_of_lt List.countP_le_length (by decide)
  · rw [putRun, netActs, List.filterMap_append]
    exact List.forall_mem_append.2 ⟨hbind, List.forall_mem_cons.2 ⟨trivial, hput⟩⟩

end Rpc

end Yfs
