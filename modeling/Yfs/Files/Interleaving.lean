import Yfs.Common.Run
import Yfs.Files.Directory

/-!
# Clients at work at the same time

`yfs_client::create` and `write` get an extent, make something of its
content and put it back. The extent server serves one request at a time,
but between the requests of one client it serves those of the others:
`yfs_client` is given the address of a lock server and does not use it.
Here an operation goes on by one request at a time, in any order with the
requests of other clients. An operation that is not interrupted is the
function of `YfsClient` (`create_alone`, `write_alone`).
-/

namespace Yfs

open Common

/-- A call of `yfs_client`. -/
inductive ClientOp where
  | create (parentID inum : UInt64) (name : List UInt8)
  | write (fileID : UInt64) (buf : List UInt8) (size off : Int32)
deriving DecidableEq

namespace ClientOp

/-- The extent that the call gets and puts back. -/
def target : ClientOp → UInt64
  | create parentID _ _ => parentID
  | write fileID _ _ _ => fileID

/-- The extent that it puts in between: that of a new file. -/
def makes : ClientOp → Option UInt64
  | create _ inum _ => if YfsClient.isfile inum then some inum else none
  | write _ _ _ _ => none

/-- What it makes of the content it got. An exception is `none`. -/
def putsBack (content : List UInt8) : ClientOp → Option (List UInt8)
  | create _ inum name => some (appended content name inum)
  | write _ buf size off =>
    (stringSubstr buf 0 (toSize size)).bind fun b =>
      if off ≥ Int32.ofNat content.length then some (content ++ b)
      else stringReplace content (toSize off) (toSize size) b

end ClientOp

/-- **`write`**, where it gets the file: it puts the file back, if that is
not too long. -/
theorem write_eq {s : ExtentServer} {fileID : UInt64} {content : List UInt8}
    (hget : s.get fileID = (.ok, content)) (buf : List UInt8) (size off : Int32) (now : UInt32) :
    YfsClient.write s fileID buf size off now =
      ((ClientOp.write fileID buf size off).putsBack content).map fun c =>
        ((s.put fileID c now).1, if c.length ≤ maxextent then .ok else .ioerr) := by
  have hput : ∀ c : List UInt8,
      (if (s.put fileID c now).2 ≠ .ok then ((s.put fileID c now).1, Status.ioerr)
        else ((s.put fileID c now).1, .ok)) =
      ((s.put fileID c now).1, if c.length ≤ maxextent then .ok else .ioerr) := by
    intro c
    rw [ExtentServer.ite_put_ok]
    split
    · rfl
    · rfl
  simp only [YfsClient.write, hget, ClientOp.putsBack, ne_eq, not_true_eq_false, if_false,
    stringSubstr_zero, Option.bind_some]
  exact congrArg (Option.map · _) (funext hput)

/-- How far a call has got: before its `get`, after it, and after the put
of the new file. It keeps the content that it got. -/
inductive OpPhase where
  | start
  | got (content : List UInt8)
  | made (content : List UInt8)
deriving DecidableEq

/-- A client: the calls it has still to make, the first of them begun. -/
structure Client where
  todo : List ClientOp
  phase : OpPhase

/-- Clients of one extent server. `done` are the calls that returned,
newest first. -/
structure Clients (ι : Type*) where
  server : ExtentServer
  clients : ι → Client
  done : List (ClientOp × Status)

namespace Clients

variable {ι : Type*} [DecidableEq ι]

/-- The call goes on. -/
def goto (p : Clients ι) (s : ExtentServer) (i : ι) (phase : OpPhase) : Clients ι :=
  { p with server := s, clients := Function.update p.clients i ⟨(p.clients i).todo, phase⟩ }

/-- The call returns. -/
def finish (p : Clients ι) (s : ExtentServer) (i : ι) (op : ClientOp) (rest : List ClientOp)
    (st : Status) : Clients ι :=
  ⟨s, Function.update p.clients i ⟨rest, .start⟩, (op, st) :: p.done⟩

/-- The call throws an exception, which ends the process. -/
def crash (p : Clients ι) (i : ι) : Clients ι :=
  { p with clients := Function.update p.clients i ⟨[], .start⟩ }

/-- The last request of a call. -/
def putBack (p : Clients ι) (i : ι) (op : ClientOp) (rest : List ClientOp) (content : List UInt8)
    (now : UInt32) : Clients ι :=
  match op.putsBack content with
  | none => p.crash i
  | some c =>
    let r := p.server.put op.target c now
    p.finish r.1 i op rest (if r.2 ≠ .ok then .ioerr else .ok)

/-- The next request of a client is served, at a time. -/
def step (p : Clients ι) (a : ι × UInt32) : Option (Clients ι) :=
  match (p.clients a.1).todo with
  | [] => none
  | op :: rest =>
    match (p.clients a.1).phase with
    | .start =>
      let r := p.server.get op.target
      if r.1 ≠ .ok then some (p.finish p.server a.1 op rest .ioerr)
      else some (p.goto p.server a.1 (.got r.2))
    | .got content =>
      match op.makes with
      | none => some (p.putBack a.1 op rest content a.2)
      | some inum =>
        let r := p.server.put inum [] a.2
        if r.2 ≠ .ok then some (p.finish r.1 a.1 op rest .ioerr)
        else some (p.goto r.1 a.1 (.made content))
    | .made content => some (p.putBack a.1 op rest content a.2)

/-- The calls that succeeded, newest first. -/
def succeeded (p : Clients ι) : List ClientOp :=
  p.done.filterMap fun d => if d.2 = .ok then some d.1 else none

variable {p p' : Clients ι} {i : ι} {op : ClientOp} {rest : List ClientOp}

/-! ## One request -/

theorem step_start (hc : p.clients i = ⟨op :: rest, .start⟩) (now : UInt32) :
    p.step (i, now) =
      if (p.server.get op.target).1 ≠ .ok then some (p.finish p.server i op rest .ioerr)
      else some (p.goto p.server i (.got (p.server.get op.target).2)) := by
  simp only [step, hc]

/-- The new file is put, which does not fail. -/
theorem step_makes {content : List UInt8} {inum : UInt64}
    (hc : p.clients i = ⟨op :: rest, .got content⟩) (hm : op.makes = some inum) (now : UInt32) :
    p.step (i, now) = some (p.goto (p.server.put inum [] now).1 i (.made content)) := by
  have hok : (p.server.put inum [] now).2 = .ok := ExtentServer.put_ok_iff.2 (Nat.zero_le _)
  simp only [step, hc, hm, hok, ne_eq, not_true_eq_false, if_false]

theorem step_got {content : List UInt8} (hc : p.clients i = ⟨op :: rest, .got content⟩)
    (hm : op.makes = none) (now : UInt32) :
    p.step (i, now) = some (p.putBack i op rest content now) := by
  simp only [step, hc, hm]

theorem step_made {content : List UInt8} (hc : p.clients i = ⟨op :: rest, .made content⟩)
    (now : UInt32) : p.step (i, now) = some (p.putBack i op rest content now) := by
  simp only [step, hc]

theorem goto_clients (s : ExtentServer) (hc : (p.clients i).todo = op :: rest) (phase : OpPhase) :
    (p.goto s i phase).clients i = ⟨op :: rest, phase⟩ := by
  simp only [goto, Function.update_self, hc]

/-! ## A call that is not interrupted -/

/-- Where the call was before makes no difference to how it returns. -/
theorem finish_goto (s s' : ExtentServer) (phase : OpPhase) (st : Status) :
    (p.goto s i phase).finish s' i op rest st = p.finish s' i op rest st := by
  rw [finish, finish, goto, Function.update_idem]

/-- The extents after the put in between, if there is one. -/
def made (s : ExtentServer) (op : ClientOp) (now : UInt32) : ExtentServer :=
  match op.makes with
  | none => s
  | some inum => (s.put inum [] now).1

/-- **A call alone**, where it gets the extent and throws no exception. -/
theorem exec_alone {content c : List UInt8} (hc : p.clients i = ⟨op :: rest, .start⟩)
    (hget : p.server.get op.target = (.ok, content)) (hput : op.putsBack content = some c)
    (now now' : UInt32) :
    ∃ as, (∀ a ∈ as, a.1 = i) ∧ exec step p as =
      some (p.finish ((made p.server op now).put op.target c now').1 i op rest
        (if ((made p.server op now).put op.target c now').2 ≠ .ok then .ioerr else .ok)) := by
  have htodo : (p.clients i).todo = op :: rest := by rw [hc]
  have hstart : p.step (i, now) = some (p.goto p.server i (.got content)) := by
    rw [step_start hc, hget, if_neg (not_not.2 rfl)]
  have hgot := goto_clients p.server htodo (.got content)
  cases hm : op.makes with
  | none =>
    refine ⟨[(i, now), (i, now')], by simp, ?_⟩
    rw [exec_cons, hstart, Option.bind_some, exec_cons, step_got hgot hm, Option.bind_some, exec,
      putBack, hput, made, hm]
    exact congrArg some (finish_goto _ _ _ _)
  | some inum =>
    refine ⟨[(i, now), (i, now), (i, now')], by simp, ?_⟩
    have htodo' : ((p.goto p.server i (.got content)).clients i).todo = op :: rest := by rw [hgot]
    have hmade := goto_clients (p.server.put inum [] now).1 htodo' (.made content)
    have hnew : (p.goto p.server i (.got content)).step (i, now) =
        some ((p.goto p.server i (.got content)).goto (p.server.put inum [] now).1 i
          (.made content)) := step_makes hgot hm now
    rw [exec_cons, hstart, Option.bind_some, exec_cons, hnew, Option.bind_some, exec_cons,
      step_made hmade, Option.bind_some, exec, putBack, hput, made, hm]
    exact congrArg some ((finish_goto _ _ _ _).trans (finish_goto _ _ _ _))

/-- A call that does not get its extent returns at once. -/
theorem exec_alone_of_ne_ok (hc : p.clients i = ⟨op :: rest, .start⟩)
    (hget : (p.server.get op.target).1 ≠ .ok) (now : UInt32) :
    ∃ as, (∀ a ∈ as, a.1 = i) ∧
      exec step p as = some (p.finish p.server i op rest .ioerr) := by
  refine ⟨[(i, now)], by simp, ?_⟩
  rw [exec_cons, step_start hc, if_pos hget, Option.bind_some, exec]

/-- **`create`**, not interrupted, is `yfs_client::create`. -/
theorem create_alone {parentID inum : UInt64} {name : List UInt8}
    (hc : p.clients i = ⟨.create parentID inum name :: rest, .start⟩) (now now' : UInt32) :
    ∃ as, (∀ a ∈ as, a.1 = i) ∧ exec step p as =
      some (p.finish (YfsClient.create p.server parentID inum name now now').1 i
        (.create parentID inum name) rest
        (YfsClient.create p.server parentID inum name now now').2) := by
  by_cases hok : (p.server.get parentID).1 = .ok
  · have hget : p.server.get parentID = (.ok, (p.server.get parentID).2) := Prod.ext hok rfl
    have hmade : made p.server (.create parentID inum name) now = Yfs.made p.server inum now := by
      rw [made, Yfs.made, ClientOp.makes]
      by_cases hfile : YfsClient.isfile inum = true
      · rw [if_pos hfile, if_pos hfile]
      · rw [if_neg hfile, if_neg hfile]
    obtain ⟨as, has, hexec⟩ := exec_alone hc hget rfl now now'
    refine ⟨as, has, hexec.trans ?_⟩
    rw [create_eq hget, hmade]
    congr 2
    exact ExtentServer.ite_put_ok _ _ _ _ _ _
  · rw [YfsClient.create]
    dsimp only
    rw [if_pos hok]
    exact exec_alone_of_ne_ok hc hok now

/-- **`write`**, not interrupted, is `yfs_client::write`. -/
theorem write_alone {fileID : UInt64} {buf : List UInt8} {size off : Int32} {now : UInt32}
    {r : ExtentServer × Status} (hc : p.clients i = ⟨.write fileID buf size off :: rest, .start⟩)
    (hr : YfsClient.write p.server fileID buf size off now = some r) :
    ∃ as, (∀ a ∈ as, a.1 = i) ∧ exec step p as =
      some (p.finish r.1 i (.write fileID buf size off) rest r.2) := by
  by_cases hok : (p.server.get fileID).1 = .ok
  · have hget : p.server.get fileID = (.ok, (p.server.get fileID).2) := Prod.ext hok rfl
    rw [write_eq hget] at hr
    obtain ⟨c, hput, rfl⟩ := Option.map_eq_some_iff.1 hr
    obtain ⟨as, has, hexec⟩ := exec_alone hc hget hput now now
    refine ⟨as, has, hexec.trans ?_⟩
    rw [ExtentServer.ite_put_ok]
    rfl
  · rw [YfsClient.write] at hr
    dsimp only at hr
    rw [if_pos hok] at hr
    obtain rfl := Option.some.inj hr
    exact exec_alone_of_ne_ok hc hok now

end Clients

end Yfs
