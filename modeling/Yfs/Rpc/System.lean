import Yfs.Common.Run
import Yfs.Marshall.Handler
import Yfs.Rpc.Window
import Yfs.Rpc.ReplyWindow

/-!
# Clients, connections and the server

The RPC system of `rpc/rpc.cc` as a transition system: any number of
`rpcc` clients, each with any number of calls in progress, one `rpcs`,
and the connections between them. A step is a section of the source that
runs under one mutex. The state of a call is the `caller` it registers
and the local variables of `call1`; the state of a dispatch thread is the
job it works on and how far it has come (`Phase`). Each end of a
connection finds it dead on its own. Messages are byte strings, from a
send until a read takes them out. A reply buffer is its contents here; the
memory it is in, which may be freed and used again before `send` reads it,
is in `Buffers`.

Beside what the source keeps, the state has a record of what happened,
newest first (`log`), which no step reads.
-/

namespace Yfs

open Common

namespace Rpc

/-! ## Constants -/

/-- `rpc_const::bind`. -/
def bindProc : UInt32 := 1

/-- `rpc_const::timeout_failure`. -/
def timeoutFailure : Int32 := -1

/-- `rpc_const::unmarshal_reply_failure`. -/
def unmarshalReplyFailure : Int32 := -3

/-- `rpc_const::atmostonce_failure`. -/
def atmostonceFailure : Int32 := -4

/-- `rpc_const::oldsrv_failure`. -/
def oldsrvFailure : Int32 := -5

/-! ## State -/

/-- The `no`-th connection that the client `owner` made. -/
structure Conn (ι : Type) where
  owner : ι
  no : ℕ
deriving DecidableEq

/-- What does not change during a run. -/
structure Config (ι Ω : Type) where
  /-- `clt_nonce_`. -/
  cltNonce : ι → UInt32
  /-- `retrans_`. -/
  retrans : ι → Bool
  /-- `nonce_` of the server. -/
  nonce : UInt32
  /-- The handlers registered beside `rpcbind`. -/
  handlers : Int32 → Option (Handler Ω)
  /-- The contents of freshly allocated memory. -/
  mem : ℕ → UInt8

variable {ι Ω : Type}

/-- `rpcs::rpcbind`, as a handler. -/
def rpcbind (nonce : UInt32) : Handler Ω where
  args := [.basic .int]
  ret := .basic .int
  meth := fun _ _ => (0, nonce.toInt32)

/-- `procs_`. -/
def Config.procs (cfg : Config ι Ω) (proc : Int32) : Option (Handler Ω) :=
  if proc = bindProc.toInt32 then some (rpcbind cfg.nonce) else cfg.handlers proc

/-- What `call1` is called with, and the numbers it packs. -/
structure Request where
  /-- `ca.xid`. -/
  xid : ℕ
  proc : UInt32
  /-- The types of the arguments. -/
  ts : List Ty
  args : Vals ts
  /-- `R`. -/
  ret : Ty
  /-- `srv_nonce_`. -/
  srvNonce : UInt32
  /-- `xid_rep_window_.front()`. -/
  xidRep : ℕ

/-- The header `call1` packs. -/
def Request.hdr (q : Request) (cltNonce : UInt32) : ReqHeader :=
  ⟨(UInt32.ofNat q.xid).toInt32, q.proc.toInt32, cltNonce, q.srvNonce,
    (UInt32.ofNat q.xidRep).toInt32⟩

/-- `req`, header packed. -/
def Request.marshalled (q : Request) (mem : ℕ → UInt8) (cltNonce : UInt32) : Marshall :=
  ((Marshall.new mem).putAll q.ts q.args).packReqHeader (q.hdr cltNonce)

/-- A buffer as `writepdu` puts it on the wire: the first four bytes are
overwritten by the size. -/
def framed (b : List UInt8) : List UInt8 := be32 (UInt32.ofNat b.length) ++ b.drop 4

/-- The request of client `i` on the wire. -/
def Request.wire (q : Request) (cfg : Config ι Ω) (i : ι) : List UInt8 :=
  framed (q.marshalled cfg.mem (cfg.cltNonce i)).str

/-- A reply without a body, on the wire and in the reply window. -/
def failureReply (mem : ℕ → UInt8) (h : ReqHeader) (ret : Int32) : List UInt8 :=
  ((Marshall.new mem).packReplyHeader ⟨h.xid, ret⟩).str

/-- A call in progress: `caller`, and the local variables of `call1`. -/
structure Caller (ι : Type) where
  q : Request
  /-- The call was made by `rpcc::bind`. -/
  bind : Bool
  ch : Option (Conn ι)
  transmit : Bool
  done : Bool
  intret : Int32
  /-- `*un`. -/
  un : Unmarshall

/-- `rpcc`. -/
structure Rpcc (ι : Type) where
  srvNonce : UInt32
  bindDone : Bool
  xid : ℕ
  chan : Option (Conn ι)
  calls : List (Caller ι)
  /-- `xid_rep_window_`. -/
  window : List ℕ
  /-- The number of connections made so far. -/
  nconn : ℕ
  /-- What calls of `bind` have returned and not stored yet. -/
  binds : List UInt32

/-- The constructor. -/
def Rpcc.new : Rpcc ι := ⟨0, false, 1, none, [], [0], 0, []⟩

/-- How far a dispatch thread has come, by what it does next. -/
inductive Phase (ι : Type) where
  /-- Waiting in the pool. -/
  | queued
  /-- `checkduplicate_and_update`. -/
  | check
  /-- `f->fn(req, rep)`. -/
  | handler
  /-- `add_reply`, with the reply. -/
  | addReply (b : List UInt8)
  /-- The choice of the connection. -/
  | choose (b : List UInt8)
  /-- `send`, in the branch of the `switch`, or before it. -/
  | send (c : Conn ι) (st : Option RpcState) (b : List UInt8)
deriving DecidableEq

/-- `djob_t`, and how far its dispatch has come. -/
structure Job (ι : Type) where
  conn : Conn ι
  pdu : List UInt8
  phase : Phase ι
deriving DecidableEq

/-- The job, one phase on. -/
def Job.goto (j : Job ι) (p : Phase ι) : Job ι := { j with phase := p }

/-- What is recorded. -/
inductive Event (ι Ω : Type) where
  /-- `call1` of client `i` packed its header. -/
  | called (i : ι) (q : Request)
  /-- `got_pdu` completed the call `xid` of client `i` with this PDU. -/
  | replied (i : ι) (xid : ℕ) (pdu : List UInt8)
  /-- A call returned `b`, with the result extracted if there is one. -/
  | returned (i : ι) (q : Request) (b : Int32) (r : Option q.ret.Val)
  /-- `checkduplicate_and_update` returned `st`. -/
  | classified (h : ReqHeader) (st : RpcState)
  /-- The handler ran for the request PDU `pdu`, and the reply is `b`. -/
  | executed (pdu : List UInt8) (w : Ω) (ret : Int32) (b : List UInt8)
  /-- A reply to the request `h` went out on `c`. -/
  | sent (c : Conn ι) (h : ReqHeader)

/-- The system. -/
structure Sys (ι Ω : Type) where
  clients : ι → Rpcc ι
  /-- `reply_window_`. A client not there has an empty list. -/
  replyWindow : UInt32 → List ReplyT
  /-- `conns_`. -/
  conns : UInt32 → Option (Conn ι)
  /-- The jobs queued or being dispatched. -/
  jobs : List (Job ι)
  /-- Messages on their way to the server. -/
  toSrv : List (Conn ι × List UInt8)
  /-- Messages on their way to a client. -/
  toClt : List (Conn ι × List UInt8)
  /-- `dead_` of the client's end. -/
  cltDead : Conn ι → Bool
  /-- `dead_` of the server's end. -/
  srvDead : Conn ι → Bool
  log : List (Event ι Ω)

/-- Nothing has happened. -/
def Sys.init : Sys ι Ω :=
  ⟨fun _ => .new, fun _ => [], fun _ => none, [], [], [], fun _ => false, fun _ => false, []⟩

/-- What can happen next. -/
inductive Action (ι Ω : Type) where
  | call (i : ι) (bind : Bool) (proc : UInt32) (ts : List Ty) (args : Vals ts) (ret : Ty)
  /-- The thread of a call transmits; `connect` says whether a connection
  can be made, if one is needed. -/
  | transmit (i : ι) (xid : ℕ) (connect : Bool)
  /-- A wait of a call times out. -/
  | wake (i : ι) (xid : ℕ)
  /-- A call leaves the loop. -/
  | finish (i : ι) (xid : ℕ)
  /-- `bind` stores what it got. -/
  | bound (i : ι) (k : ℕ)
  /-- A client reads the `k`-th message. -/
  | gotPdu (k : ℕ)
  /-- The server reads the `k`-th message. -/
  | recv (k : ℕ)
  /-- The next step of the `k`-th job. -/
  | dispatch (k : ℕ) (w : Ω)
  | dieClient (c : Conn ι)
  | dieServer (c : Conn ι)
  | dupSrv (k : ℕ)
  | dropSrv (k : ℕ)
  | dupClt (k : ℕ)
  | dropClt (k : ℕ)

namespace Sys

variable [DecidableEq ι]

/-! ## The client -/

/-- The client `i` after a step of its own. -/
def setClient (s : Sys ι Ω) (i : ι) (c : Rpcc ι) : Sys ι Ω :=
  { s with clients := Function.update s.clients i c }

/-- The calls with the call `xid` changed. -/
def setCall (calls : List (Caller ι)) (xid : ℕ) (f : Caller ι → Caller ι) : List (Caller ι) :=
  calls.map fun ca => if ca.q.xid = xid then f ca else ca

/-- The call `xid`. -/
def findCall (calls : List (Caller ι)) (xid : ℕ) : Option (Caller ι) :=
  calls.find? fun ca => ca.q.xid == xid

/-- `call1`, up to the loop. A call that fails at once leaves no trace. -/
def call (cfg : Config ι Ω) (s : Sys ι Ω) (i : ι) (bind : Bool) (proc : UInt32) (ts : List Ty)
    (args : Vals ts) (ret : Ty) : Option (Sys ι Ω) :=
  let c := s.clients i
  if (proc ≠ bindProc ∧ c.bindDone = false) ∨ (proc = bindProc ∧ c.bindDone = true) then some s
  else
    let q : Request := ⟨c.xid, proc, ts, args, ret, c.srvNonce, windowFront c.window⟩
    let ca : Caller ι := ⟨q, bind, none, true, false, 0, ⟨cfg.mem, 0, 0, false, []⟩⟩
    some { s.setClient i { c with xid := (c.xid + 1) % 2 ^ 32, calls := ca :: c.calls } with
      log := .called i q :: s.log }

/-- `get_refconn`: `chan_` after it, and the number of connections. -/
def getRefconn (s : Sys ι Ω) (i : ι) (connect : Bool) : Option (Conn ι) × ℕ :=
  let c := s.clients i
  if c.chan.all s.cltDead then
    if connect then (some ⟨i, c.nconn⟩, c.nconn + 1) else (none, c.nconn)
  else (c.chan, c.nconn)

/-- What a send on `c` leaves in the network: nothing, if either end is
dead. -/
def onWire (s : Sys ι Ω) (c : Conn ι) (b : List UInt8) : List (Conn ι × List UInt8) :=
  if s.cltDead c || s.srvDead c then [] else [(c, framed b)]

/-- The part of the loop of `call1` under `if (transmit)`. -/
def transmit (cfg : Config ι Ω) (s : Sys ι Ω) (i : ι) (xid : ℕ) (connect : Bool) :
    Option (Sys ι Ω) :=
  match findCall (s.clients i).calls xid with
  | none => none
  | some ca =>
    if ca.transmit = false then none
    else
      let r := s.getRefconn i connect
      let ch := if r.1.isSome then r.1 else ca.ch
      let msgs := match ch with
        | none => []
        | some c => s.onWire c (ca.q.marshalled cfg.mem (cfg.cltNonce i)).str
      let calls := setCall (s.clients i).calls xid fun ca => { ca with ch := ch, transmit := false }
      some { s.setClient i { s.clients i with chan := r.1, nconn := r.2, calls := calls } with
        toSrv := msgs ++ s.toSrv }

/-- A wait that ended without the call being done. -/
def wake (cfg : Config ι Ω) (s : Sys ι Ω) (i : ι) (xid : ℕ) : Option (Sys ι Ω) :=
  match findCall (s.clients i).calls xid with
  | none => none
  | some ca =>
    if ca.transmit = true ∨ ca.done = true then none
    else if cfg.retrans i = true ∧ ca.ch.all s.cltDead = true then
      let calls := setCall (s.clients i).calls xid fun ca => { ca with transmit := true }
      some (s.setClient i { s.clients i with calls := calls })
    else some s

/-- `call_m`, after `call1`: what is returned, and the result. -/
def callResult (ca : Caller ι) : Int32 × Option ca.q.ret.Val :=
  let intret := if ca.done then ca.intret else timeoutFailure
  if intret < 0 then (intret, none)
  else
    let r := ca.un.get ca.q.ret
    if r.1.okdone then (intret, some r.2) else (unmarshalReplyFailure, none)

/-- The end of `call1`, and of `call_m`. -/
def finish (s : Sys ι Ω) (i : ι) (xid : ℕ) : Option (Sys ι Ω) :=
  match findCall (s.clients i).calls xid with
  | none => none
  | some ca =>
    if ca.transmit = true then none
    else
      let c := s.clients i
      let r := callResult ca
      let binds := if ca.bind = true ∧ r.1 = 0 then ca.un.getInt.2.toUInt32 :: c.binds else c.binds
      let calls := c.calls.filter fun ca => decide (ca.q.xid ≠ xid)
      some { s.setClient i { c with
          calls := calls, window := updateXidRep c.window xid, binds := binds } with
        log := .returned i ca.q r.1 r.2 :: s.log }

/-- The end of `rpcc::bind`. -/
def bound (s : Sys ι Ω) (i : ι) (k : ℕ) : Option (Sys ι Ω) :=
  let c := s.clients i
  c.binds[k]?.map fun v =>
    s.setClient i { c with bindDone := true, srvNonce := v, binds := c.binds.eraseIdx k }

/-- What `rpcc::got_pdu` does to the caller the reply is for. -/
def complete (rep : Unmarshall) (ret : Int32) (ca : Caller ι) : Caller ι :=
  if ca.done then ca else { ca with done := true, intret := ret, un := rep.takeIn }

/-- A client takes the `k`-th message off a connection that is alive at
its end, and `rpcc::got_pdu` gets it. -/
def gotPdu (cfg : Config ι Ω) (s : Sys ι Ω) (k : ℕ) : Option (Sys ι Ω) :=
  match s.toClt[k]? with
  | none => none
  | some (cn, b) =>
    if s.cltDead cn = true ∨ b.length > maxPdu then none
    else
      let s' := { s with toClt := s.toClt.eraseIdx k }
      let rep := (Unmarshall.ofBytes cfg.mem b).unpackReplyHeader
      if rep.1.ok = false then some s'
      else
        let xid := rep.2.xid.toUInt32.toNat
        let c := s.clients cn.owner
        let calls := setCall c.calls xid (complete rep.1 rep.2.ret)
        let log := match findCall c.calls xid with
          | none => s.log
          | some ca => if ca.done then s.log else .replied cn.owner xid b :: s.log
        some { s'.setClient cn.owner { c with
          window := updateXidRep c.window xid, calls := calls } with log := log }

/-! ## The server -/

/-- The server takes the `k`-th message off a connection that is alive
at its end, and `rpcs::got_pdu` queues it. -/
def recv (s : Sys ι Ω) (k : ℕ) : Option (Sys ι Ω) :=
  match s.toSrv[k]? with
  | none => none
  | some (c, b) =>
    if s.srvDead c = true ∨ b.length > maxPdu then none
    else some { s with toSrv := s.toSrv.eraseIdx k, jobs := ⟨c, b, .queued⟩ :: s.jobs }

/-- The request of a job, as `dispatch` unpacks it. -/
def parse (cfg : Config ι Ω) (pdu : List UInt8) : Unmarshall × ReqHeader :=
  (Unmarshall.ofBytes cfg.mem pdu).unpackReqHeader

/-- The start of `dispatch`: the tests on the header, and the update of
`conns_`. -/
def start (cfg : Config ι Ω) (s : Sys ι Ω) (j : Job ι) (rest : List (Job ι)) : Sys ι Ω :=
  let r := parse cfg j.pdu
  if r.1.ok = false then { s with jobs := rest }
  else if r.2.srvNonce ≠ 0 ∧ r.2.srvNonce ≠ cfg.nonce then
    { s with jobs := j.goto (.send j.conn none (failureReply cfg.mem r.2 oldsrvFailure)) :: rest }
  else if (cfg.procs r.2.proc).isNone then { s with jobs := rest }
  else if r.2.cltNonce ≠ 0 then
    { s with
      conns := fun n => if n = r.2.cltNonce then some j.conn else s.conns n
      jobs := j.goto .check :: rest }
  else { s with jobs := j.goto .handler :: rest }

/-- `checkduplicate_and_update`, and where the `switch` goes. -/
def check (cfg : Config ι Ω) (s : Sys ι Ω) (j : Job ι) (rest : List (Job ι)) : Sys ι Ω :=
  let h := (parse cfg j.pdu).2
  let r := checkduplicateAndUpdate (s.replyWindow h.cltNonce) h.xid.toUInt32.toNat
    h.xidRep.toUInt32.toNat
  let jobs := match r.2.1 with
    | .new => j.goto .handler :: rest
    | .inprogress => rest
    | .done => j.goto (.send j.conn (some .done) r.2.2) :: rest
    | .forgotten =>
      j.goto (.send j.conn (some .forgotten) (failureReply cfg.mem h atmostonceFailure)) :: rest
  { s with
    replyWindow := fun n => if n = h.cltNonce then r.1 else s.replyWindow n
    jobs := jobs
    log := .classified h r.2.1 :: s.log }

/-- The handler. It must return a value that is not negative, or
`unmarshal_args_failure`. -/
def runHandler (cfg : Config ι Ω) (s : Sys ι Ω) (j : Job ι) (rest : List (Job ι)) (w : Ω) :
    Option (Sys ι Ω) :=
  let r := parse cfg j.pdu
  match cfg.procs r.2.proc with
  | none => none
  | some f =>
    let x := f.fn w r.1 (.new cfg.mem)
    if x.ret < 0 ∧ x.ret ≠ unmarshalArgsFailure then none
    else
      let b := (x.rep.packReplyHeader ⟨r.2.xid, x.ret⟩).str
      let p : Phase ι := if r.2.cltNonce ≠ 0 then .addReply b else .choose b
      some { s with
        jobs := j.goto p :: rest
        log := .executed j.pdu w x.ret b :: s.log }

/-- `add_reply`. -/
def storeReply (cfg : Config ι Ω) (s : Sys ι Ω) (j : Job ι) (rest : List (Job ι))
    (b : List UInt8) : Sys ι Ω :=
  let h := (parse cfg j.pdu).2
  { s with
    replyWindow := fun n =>
      if n = h.cltNonce then addReply (s.replyWindow n) h.xid.toUInt32.toNat b
      else s.replyWindow n
    jobs := j.goto (.choose b) :: rest }

/-- The choice of the connection. A null pointer in `conns_` would be
dereferenced. -/
def choose (cfg : Config ι Ω) (s : Sys ι Ω) (j : Job ι) (rest : List (Job ι)) (b : List UInt8) :
    Option (Sys ι Ω) :=
  let latest := s.conns (parse cfg j.pdu).2.cltNonce
  if s.srvDead j.conn = true ∧ latest ≠ some j.conn then
    latest.map fun c => { s with jobs := j.goto (.send c (some .new) b) :: rest }
  else some { s with jobs := j.goto (.send j.conn (some .new) b) :: rest }

/-- `send` of the bytes that it finds in the buffer, and the end of the
dispatch. -/
def send (cfg : Config ι Ω) (s : Sys ι Ω) (j : Job ι) (rest : List (Job ι)) (c : Conn ι)
    (b : List UInt8) : Sys ι Ω :=
  let msgs := s.onWire c b
  { s with
    jobs := rest
    toClt := msgs ++ s.toClt
    log := if msgs = [] then s.log else .sent c (parse cfg j.pdu).2 :: s.log }

/-- The next step of a job. -/
def dispatch (cfg : Config ι Ω) (s : Sys ι Ω) (k : ℕ) (w : Ω) : Option (Sys ι Ω) :=
  match s.jobs[k]? with
  | none => none
  | some j =>
    let rest := s.jobs.eraseIdx k
    match j.phase with
    | .queued => some (s.start cfg j rest)
    | .check => some (s.check cfg j rest)
    | .handler => s.runHandler cfg j rest w
    | .addReply b => some (s.storeReply cfg j rest b)
    | .choose b => s.choose cfg j rest b
    -- the buffer as it was stored
    | .send c _ b => some (s.send cfg j rest c b)

/-! ## Connections and the network -/

/-- A connection that has been made is found dead by the client. -/
def dieClient (s : Sys ι Ω) (c : Conn ι) : Option (Sys ι Ω) :=
  if c.no < (s.clients c.owner).nconn then
    some { s with cltDead := Function.update s.cltDead c true }
  else none

/-- The same, by the server. -/
def dieServer (s : Sys ι Ω) (c : Conn ι) : Option (Sys ι Ω) :=
  if c.no < (s.clients c.owner).nconn then
    some { s with srvDead := Function.update s.srvDead c true }
  else none

/-- One step. -/
def step (cfg : Config ι Ω) (s : Sys ι Ω) : Action ι Ω → Option (Sys ι Ω)
  | .call i bind proc ts args ret => s.call cfg i bind proc ts args ret
  | .transmit i xid connect => s.transmit cfg i xid connect
  | .wake i xid => s.wake cfg i xid
  | .finish i xid => s.finish i xid
  | .bound i k => s.bound i k
  | .gotPdu k => s.gotPdu cfg k
  | .recv k => s.recv k
  | .dispatch k w => s.dispatch cfg k w
  | .dieClient c => s.dieClient c
  | .dieServer c => s.dieServer c
  | .dupSrv k => s.toSrv[k]?.map fun m => { s with toSrv := m :: s.toSrv }
  | .dropSrv k => s.toSrv[k]?.map fun _ => { s with toSrv := s.toSrv.eraseIdx k }
  | .dupClt k => s.toClt[k]?.map fun m => { s with toClt := m :: s.toClt }
  | .dropClt k => s.toClt[k]?.map fun _ => { s with toClt := s.toClt.eraseIdx k }

end Sys

end Rpc

end Yfs
