import Yfs.Connection.Read

/-!
# The writing side of a connection

`connection::send`, `write_cb`, `writepdu` and `closeconn` of
`rpc/connection.cc`, run by any number of threads. A section under `m_`
is one step, with the result of the `write` that it may call as an input;
a wait on a condition variable may end at any time, signalled or not, and
the poll manager may call `write_cb` at any time, which over-counts what
they do. `lossy_` shuts the socket down before a `write`, which shows in
the result of that `write` and nowhere else. `none` is a failed `assert`.
-/

namespace Yfs

open Common

/-- What a call of `write` returns. -/
inductive WriteResult where
  /-- A count, not negative. -/
  | count (n : ℕ)
  /-- A negative count, with `errno` set. -/
  | fail (e : Errno)
deriving DecidableEq

/-- The arguments of `send`: a PDU made in a `marshall`, so with room for
the header, of which the first four bytes are for its size. -/
structure Pdu where
  /-- The memory from `b` on. -/
  b : ℕ → UInt8
  sz : ℕ
  header : rpcHeaderSz ≤ sz
  /-- `sz` is an `int`. -/
  int : sz < 2 ^ 31

/-- Where a call of `send` is. -/
inductive SendPc where
  /-- Not begun. -/
  | start
  /-- In the wait for `wpdu_.buf` to be free. -/
  | waiting
  /-- In the wait for the PDU to be written, which is number `k` of those
  that obtained `wpdu_`. -/
  | completing (k : ℕ)
  /-- In `block_remove_fd`, after a failed `writepdu`. -/
  | removing (k : ℕ)
deriving DecidableEq

/-- A call of `send` on its thread. -/
structure Sender where
  pdu : Pdu
  pc : SendPc

/-- A call of `send` that returned. -/
structure Returned where
  pdu : Pdu
  /-- Its number among those that obtained `wpdu_`, if it did. -/
  place : Option ℕ
  ret : Bool

/-- A connection with the threads that send on it. -/
structure Outgoing where
  /-- The rest of the connection, with `dead_`. -/
  conn : Connection
  /-- `wpdu_`. -/
  wpdu : Charbuf
  /-- `waiters_`. -/
  waiters : ℤ
  senders : List Sender
  /-- How often `send_wait_` was broadcast. -/
  broadcasts : ℕ
  /-- The bytes written to the socket. -/
  out : List UInt8
  /-- The PDUs for which `send` obtained `wpdu_`, oldest first. -/
  obtained : List Pdu
  returned : List Returned

/-- `htonl`, as the bytes that `bcopy` copies. -/
def htonl (sz : ℤ) : List UInt8 := be32 (UInt32.ofInt sz)

namespace Outgoing

/-- A connection just constructed. -/
def new (errno : Errno) : Outgoing := ⟨.new errno, .empty, 0, [], 0, [], [], []⟩

/-- `connection::writepdu`, with the result of `write`, if it is called.
A count is not above what was asked for. -/
def writepdu (s : Outgoing) (r : WriteResult) : Option (Outgoing × Bool) :=
  if s.wpdu.solong < 0 then none
  else if s.wpdu.solong = s.wpdu.sz then some (s, true)
  else
    s.wpdu.buf.bind fun b =>
      let b := if s.wpdu.solong = 0 then writeAt b 0 (htonl s.wpdu.sz) else b
      match r with
      | .fail .again => some ({ s with wpdu := { s.wpdu with buf := some b } }, true)
      | .fail .other =>
        some ({ s with wpdu := { s.wpdu with buf := some b, solong := -1, sz := 0 } }, false)
      | .count n =>
        if n ≤ s.wpdu.sz - s.wpdu.solong then
          some ({ s with
            wpdu := { s.wpdu with buf := some b, solong := s.wpdu.solong + n }
            out := s.out ++ bytesAt b s.wpdu.solong.toNat n }, true)
        else none

/-- The connection is found to be dead. -/
def die (s : Outgoing) : Outgoing := { s with conn := { s.conn with dead := true } }

/-- The end of `send`, from `bool ret` on, with the other senders `rest`. -/
def finish (s : Outgoing) (pdu : Pdu) (k : ℕ) (rest : List Sender) : Outgoing :=
  { s with
    wpdu := .empty
    senders := rest
    broadcasts := if s.waiters > 0 then s.broadcasts + 1 else s.broadcasts
    returned := ⟨pdu, some k, !s.conn.dead && s.wpdu.solong = s.wpdu.sz⟩ :: s.returned }

/-- `send` obtains `wpdu_`. -/
def obtainWpdu (s : Outgoing) (pdu : Pdu) (rest : List Sender) : Outgoing :=
  { s with
    wpdu := ⟨some pdu.b, pdu.sz, pdu.sz, 0⟩
    obtained := s.obtained ++ [pdu]
    senders := ⟨pdu, .completing s.obtained.length⟩ :: rest }

/-- `send` from the first loop to where the mutex is let go of. -/
def trySend (s : Outgoing) (pdu : Pdu) (rest : List Sender) (r : WriteResult) : Option Outgoing :=
  if s.conn.dead = false ∧ s.wpdu.buf.isSome then
    some { s with senders := ⟨pdu, .waiting⟩ :: rest }
  else
    let s := { s with waiters := s.waiters - 1 }
    if s.conn.dead then
      some { s with senders := rest, returned := ⟨pdu, none, false⟩ :: s.returned }
    else
      let k := s.obtained.length
      ((s.obtainWpdu pdu rest).writepdu r).map fun w =>
        if w.2 = false then { w.1.die with senders := ⟨pdu, .removing k⟩ :: rest }
        else if w.1.wpdu.solong = w.1.wpdu.sz then w.1.finish pdu k rest
        else w.1

/-- The next section of a call of `send`. -/
def runSender (s : Outgoing) (t : Sender) (rest : List Sender) (r : WriteResult) :
    Option Outgoing :=
  match t.pc with
  | .start => { s with waiters := s.waiters + 1 }.trySend t.pdu rest r
  | .waiting => s.trySend t.pdu rest r
  | .completing k =>
    if s.conn.dead = false ∧ 0 ≤ s.wpdu.solong ∧ s.wpdu.solong < s.wpdu.sz then
      some { s with senders := t :: rest }
    else some (s.finish t.pdu k rest)
  | .removing k =>
    some ({ s with conn := { s.conn with watched := false } }.finish t.pdu k rest)

/-- `pthread_cond_signal(&send_complete_)`. -/
def signalComplete (s : Outgoing) : Outgoing :=
  { s with conn := { s.conn with signals := s.conn.signals + 1 } }

/-- `connection::write_cb`. -/
def writeCb (s : Outgoing) (r : WriteResult) : Option Outgoing :=
  if s.conn.dead then none
  else if s.wpdu.sz = 0 then some s
  else
    (s.writepdu r).bind fun w =>
      if w.2 = false then
        some { w.1 with conn := { w.1.conn with watched := false, dead := true } }.signalComplete
      else if w.1.wpdu.solong < 0 then none
      else if w.1.wpdu.solong < w.1.wpdu.sz then some w.1
      else some w.1.signalComplete

/-- `connection::closeconn`. -/
def closeconn (s : Outgoing) : Outgoing :=
  if s.conn.dead then s
  else { s with conn := { s.conn with dead := true, watched := false } }

/-- What can happen. -/
inductive Act where
  /-- A thread calls `send`. -/
  | send (pdu : Pdu)
  /-- A call of `send` goes on. -/
  | run (k : ℕ) (r : WriteResult)
  | writeCb (r : WriteResult)
  | readCb (mem : ℕ → UInt8) (io : ReadIn)
  | closeconn

/-- One step. -/
def step (s : Outgoing) : Act → Option Outgoing
  | .send pdu => some { s with senders := s.senders ++ [⟨pdu, .start⟩] }
  | .run k r => s.senders[k]?.bind fun t => s.runSender t (s.senders.eraseIdx k) r
  | .writeCb r => s.writeCb r
  | .readCb mem io => (s.conn.readCb mem io).map fun c => { s with conn := c.1 }
  | .closeconn => some s.closeconn

end Outgoing

end Yfs
