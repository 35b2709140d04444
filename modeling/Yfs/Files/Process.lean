import Yfs.Files.Tree
import Yfs.Rpc.Single

/-!
# The yfs process

The handlers of `fuse.cc` and the functions of `yfs_client.cc` as the
process has them: programs of the calls of `extent_client.cc`, which go to
the extent server by RPC. The process is one thread (`fuse_session_loop`),
which binds and then serves one request after the other.

Where each call is served at once, a handler does what it does on extents
at hand, with the clock of the server at its puts (`runs_serve`). With
what threads that make remote calls come to, and the server inside one
method at a time since there is one thread (`orderly_of_keepsUsed`), the
process answers, over any run of the RPC system that frees no buffer in
use, as with the extents at hand (`process_follows`).
-/

namespace Yfs

open Common

open Rpc (RemoteCall Answer Performs methods extentMethods)

/-- What the process does up to a result. -/
abbrev YfsProg (α : Type) : Type := Prog RemoteCall Answer α

/-! ## The calls -/

namespace ExtentClient

/-- `extent_client::get`: the status, and `buf`. -/
def get (eid : UInt64) : YfsProg (Int32 × List UInt8) := do
  let r ← Prog.ask ⟨0x6002, [.basic .ulonglong], (eid, ()), .basic .string⟩
  return (r.1, Option.getD r.2 [])

/-- `extent_client::getattr`: the status, and `attr`. -/
def getattr (eid : UInt64) : YfsProg (Int32 × Attr) := do
  let r ← Prog.ask ⟨0x6003, [.basic .ulonglong], (eid, ()), .attr⟩
  return (r.1, Option.getD r.2 ⟨0, 0, 0, 0⟩)

/-- `extent_client::put`. -/
def put (eid : UInt64) (buf : List UInt8) : YfsProg Int32 := do
  let r ← Prog.ask ⟨0x6001, [.basic .ulonglong, .basic .string], (eid, buf, ()), .basic .int⟩
  return r.1

/-- `extent_client::setattr`. -/
def setattr (eid : UInt64) (a : Attr) : YfsProg Int32 := do
  let r ← Prog.ask ⟨0x6005, [.basic .ulonglong, .attr], (eid, a, ()), .basic .int⟩
  return r.1

/-- The constructor, which goes on when `bind` has failed. -/
def new : YfsProg Unit := do
  let _ ← Prog.ask ⟨Rpc.bindProc, [.basic .int], (0, ()), .basic .int⟩
  return ()

end ExtentClient

/-! ## The functions of `yfs_client` -/

/-- The same surroundings, with the clock at the puts of an operation. -/
def Ambient.withClock (w : Ambient) (now now' : UInt32) : Ambient :=
  { w with now := now, now' := now' }

/-- The same request, with the clock at its puts. -/
def Asked.withClock (a : Asked) (clock : UInt32 × UInt32) : Asked :=
  { a with ambient := a.ambient.withClock clock.1 clock.2 }

namespace YfsProcess

/-- `extent_protocol::OK`. -/
def ok : Int32 := Rpc.statusCode .ok

/-- `yfs_client::getfile`. -/
def getfile (inum : UInt64) (fin : FileInfo) : YfsProg (Status × FileInfo) := do
  let r ← ExtentClient.getattr inum
  if r.1 ≠ ok then return (.ioerr, fin)
  else return (.ok, ⟨r.2.size.toUInt64, r.2.atime.toUInt64, r.2.mtime.toUInt64, r.2.ctime.toUInt64⟩)

/-- `yfs_client::getdir`. -/
def getdir (inum : UInt64) (din : DirInfo) : YfsProg (Status × DirInfo) := do
  let r ← ExtentClient.getattr inum
  if r.1 ≠ ok then return (.ioerr, din)
  else return (.ok, ⟨r.2.atime.toUInt64, r.2.mtime.toUInt64, r.2.ctime.toUInt64⟩)

/-- `yfs_client::create`. -/
def create (parentID inum : UInt64) (name : List UInt8) : YfsProg Status := do
  let dirContent ← ExtentClient.get parentID
  if dirContent.1 ≠ ok then return .ioerr
  else
    let r ← (if YfsClient.isfile inum then ExtentClient.put inum [] else pure ok)
    if r ≠ ok then return .ioerr
    else
      let c := if dirContent.2 ≠ [] then dirContent.2 ++ [colon] else dirContent.2
      let r' ← ExtentClient.put parentID (c ++ name ++ [colon] ++ YfsClient.filename inum)
      if r' ≠ ok then return .ioerr else return .ok

/-- `yfs_client::getDirContent`. -/
def getDirContent (inum : UInt64) : YfsProg (Option (Status × List (List UInt8 × UInt64))) := do
  let content ← ExtentClient.get inum
  if content.1 ≠ ok then return some (.ioerr, [])
  else if stringFind content.2 [colon] 0 = none then return some (.ok, [])
  else
    return (YfsClient.listLoop content.2 (content.2.length + 1) 0 ⟨0, 0, [], []⟩).bind fun l =>
      (stringSubstr content.2 (toSize l.first) (toSize l.last)).map fun field =>
        (.ok, l.pairs ++ [(l.tempName, YfsClient.stringToid field)])

/-- `yfs_client::read`. -/
def read (inum : UInt64) (readSize : UInt64) (offset : Int64) :
    YfsProg (Option (Status × List UInt8)) := do
  let content ← ExtentClient.get inum
  if content.1 ≠ ok then return some (.ioerr, [])
  else if offset < 0 then return some (.ioerr, [])
  else if offset.toUInt64.toNat ≥ content.2.length then return some (.ok, [])
  else
    return (stringSubstr content.2 offset.toUInt64.toNat readSize.toNat).map fun r => (.ok, r)

/-- `yfs_client::ilookup`. -/
def ilookup (finum parentID : UInt64) (name : List UInt8) : YfsProg (Option UInt64) := do
  let dirContent ← ExtentClient.get parentID
  if dirContent.1 ≠ ok then return some 0
  else
    let content := dirContent.2 ++ [colon]
    let name := name ++ [colon]
    match stringFind content name 0 with
    | none => return some 0
    | some pos =>
      let head := pos + name.length
      let tail := (stringFind content [colon] head).getD content.length
      return (stringSubstr content head (tail - head)).map (YfsClient.n2i finum)

/-- `yfs_client::setattr`. -/
def setattr (fileID : UInt64) (finSize : UInt64) (a : Attr) : YfsProg Status := do
  let r ← ExtentClient.setattr fileID { a with size := finSize.toUInt32 }
  if r ≠ ok then return .ioerr else return .ok

/-- `yfs_client::write`. -/
def write (fileID : UInt64) (buf : List UInt8) (size off : Int32) : YfsProg (Option Status) := do
  let content ← ExtentClient.get fileID
  if content.1 ≠ ok then return some .ioerr
  else
    let contentSize := Int32.ofNat content.2.length
    let content' := (stringSubstr buf 0 (toSize size)).bind fun b =>
      if off ≥ contentSize then some (content.2 ++ b)
      else stringReplace content.2 (toSize off) (toSize size) b
    match content' with
    | none => return none
    | some c =>
      let r ← ExtentClient.put fileID c
      if r ≠ ok then return some .ioerr else return some .ok

/-! ## The handlers -/

/-- `fuseserver_createhelper`. -/
def fuseserverCreatehelper (w : Ambient) (parent : UInt64) (name : List UInt8) :
    YfsProg (Status × EntryParam) := do
  let r ← create parent (fileID w) name
  if r ≠ .ok then return (r, w.entry)
  else
    let g ← getfile (fileID w) w.info
    if g.1 ≠ .ok then return (g.1, w.entry)
    else return (.ok, ⟨fileID w, { w.entry.attr with ino := fileID w }.ofFile g.2⟩)

/-- `fuseserver_create`. -/
def fuseserverCreate (w : Ambient) (parent : UInt64) (name : List UInt8) :
    YfsProg (List FuseReply) := do
  let r ← fuseserverCreatehelper w parent name
  if r.1 = .ok then return [.create r.2] else return [.err .enoent]

/-- `fuseserver_mknod`. -/
def fuseserverMknod (w : Ambient) (parent : UInt64) (name : List UInt8) :
    YfsProg (List FuseReply) := do
  let r ← fuseserverCreatehelper w parent name
  if r.1 = .ok then return [.entry r.2] else return [.err .enoent]

/-- `fuseserver_mkdir`. -/
def fuseserverMkdir (w : Ambient) (parent : UInt64) (name : List UInt8) :
    YfsProg (List FuseReply) := do
  let r ← create parent (dirID w) name
  if r ≠ .ok then return [.err .enosys]
  else
    let g ← getfile (dirID w) w.info
    if g.1 ≠ .ok then return [.err .enosys]
    else
      let st : Stat :=
        { w.entry.attr with
          ino := dirID w, mode := dirMode, nlink := 2, atime := g.2.atime.toInt64,
          mtime := g.2.mtime.toInt64, ctime := g.2.ctime.toInt64 }
      return [.entry ⟨dirID w, st⟩]

/-- `fuseserver_write`. -/
def fuseserverWrite (ino : UInt64) (buf : List UInt8) (size : UInt64) (off : Int64) :
    YfsProg (Option (List FuseReply)) := do
  let r ← write ino (cString buf) size.toUInt32.toInt32 off.toInt32
  return r.map fun st => if st ≠ .ok then [.err .enosys] else [.write size]

/-- `fuseserver_setattr`. -/
def fuseserverSetattr (w : Ambient) (ino : UInt64) (stSize : Int64) (toSet : UInt32) :
    YfsProg (List FuseReply) := do
  if fuseSetAttrSize &&& toSet ≠ 0 then
    let info := { w.info with size := stSize.toUInt64 }
    let r ← setattr ino info.size w.attr
    if r ≠ .ok then return [.err .enosys]
    else
      let g ← getfile ino info
      if g.1 ≠ .ok then return [.err .enosys] else return [.attr (w.stat.ofFile g.2)]
  else return [.err .enosys]

/-- `getattr` of `fuse.cc`. -/
def fuseGetattr (w : Ambient) (inum : UInt64) : YfsProg (Status × Stat) := do
  let st : Stat := ⟨inum, 0, 0, 0, 0, 0, 0⟩
  if YfsClient.isfile inum then
    let g ← getfile inum w.info
    if g.1 ≠ .ok then return (g.1, st) else return (.ok, st.ofFile g.2)
  else
    let g ← getdir inum w.dirInfo
    if g.1 ≠ .ok then return (g.1, st) else return (.ok, st.ofDir g.2)

/-- `fuseserver_getattr`. -/
def fuseserverGetattr (w : Ambient) (ino : UInt64) : YfsProg (List FuseReply) := do
  let r ← fuseGetattr w ino
  if r.1 ≠ .ok then return [.err .enoent] else return [.attr r.2]

/-- `fuseserver_read`. -/
def fuseserverRead (ino : UInt64) (size : UInt64) (off : Int64) :
    YfsProg (Option (List FuseReply)) := do
  let r ← read ino size off
  return r.map fun r => if r.1 ≠ .ok then [.err .enosys] else [.buf r.2]

/-- `fuseserver_lookup`. -/
def fuseserverLookup (w : Ambient) (finum parent : UInt64) (name : List UInt8) :
    YfsProg (Option (List FuseReply)) := do
  match ← ilookup finum parent name with
  | none => return none
  | some inum =>
    if inum = 0 then return some [.err .enoent]
    else if YfsClient.isfile inum then
      let g ← getfile inum w.info
      return some ((if g.1 ≠ .ok then [.err .enoent] else []) ++
        [.entry ⟨inum, w.entry.attr.ofFile g.2⟩])
    else
      let g ← getdir inum w.dirInfo
      return some ((if g.1 ≠ .ok then [.err .enoent] else []) ++
        [.entry ⟨inum, w.entry.attr.ofDir g.2⟩])

/-- `fuseserver_readdir`. -/
def fuseserverReaddir (lib : LibFuse) (ino : UInt64) (size : UInt64) (off : Int64) :
    YfsProg (Option (List FuseReply)) := do
  if ¬ YfsClient.isdir ino then return some [.err .enotdir]
  else
    let r ← getDirContent ino
    return r.map fun r =>
      if r.1 ≠ .ok then []
      else
        let b := r.2.reverse.foldl (fun b e => dirbufAdd lib b e.1 e.2) ⟨[], 0⟩
        [replyBufLimited b off size]

/-- A request is served: the replies, or nothing where the process ends. -/
def serve (lib : LibFuse) (w : Ambient) (finum : UInt64) :
    FuseReq → YfsProg (Option (List FuseReply))
  | .getattr ino => some <$> fuseserverGetattr w ino
  | .read ino size off => fuseserverRead ino size off
  | .lookup parent name => fuseserverLookup w finum parent name
  | .readdir ino size off => fuseserverReaddir lib ino size off
  | .open ino => return some (fuseserverOpen ino)
  | .unlink parent name => return some (fuseserverUnlink parent name)
  | .statfs => return some fuseserverStatfs
  | .change (.create parent name) => some <$> fuseserverCreate w parent name
  | .change (.mknod parent name) => some <$> fuseserverMknod w parent name
  | .change (.mkdir parent name) => some <$> fuseserverMkdir w parent name
  | .change (.write ino buf size off) => fuseserverWrite ino buf size off
  | .change (.setattr ino stSize toSet) => some <$> fuseserverSetattr w ino stSize toSet

/-- The loop of FUSE: the replies to each request. -/
def serveAll (lib : LibFuse) : List Asked → YfsProg (Option (List (List FuseReply)))
  | [] => return some []
  | a :: reqs => do
    match ← serve lib a.ambient a.finum a.req with
    | none => return none
    | some replies =>
      let rest ← serveAll lib reqs
      return rest.map (replies :: ·)

/-- The process. -/
def main (lib : LibFuse) (reqs : List Asked) : YfsProg (Option (List (List FuseReply))) := do
  ExtentClient.new
  serveAll lib reqs

/-! ## On the extents -/

variable {cfg : Rpc.Config Unit (ExtentServer × Rpc.Ambient)} {x y : ExtentServer} {α : Type}

/-- The program is run on the extents, each call served at once. -/
abbrev RunsOn (cfg : Rpc.Config Unit (ExtentServer × Rpc.Ambient)) (p : YfsProg α)
    (x : ExtentServer) (a : α) (y : ExtentServer) : Prop :=
  p.Runs (Performs (methods cfg extentMethods)) x a y

/-- `0` is the code of `OK` alone. -/
theorem statusCode_eq_ok {st : Status} : Rpc.statusCode st = ok ↔ st = .ok := by
  cases st <;> decide

/-- `get` of the client answers as `get` of the server, and leaves the
extents. -/
theorem runs_get {eid : UInt64} {r : Int32 × List UInt8}
    (h : RunsOn cfg (ExtentClient.get eid) x r y) :
    r = (Rpc.statusCode (x.get eid).1, (x.get eid).2) ∧ y = x := by
  obtain ⟨a, z, ha, hr⟩ := Prog.runs_bind.1 h
  obtain ⟨rfl, rfl⟩ := Prog.runs_pure.1 hr
  obtain ⟨t, hans, rfl⟩ := (Prog.runs_ask.1 ha).exists_run Rpc.getMethod (eid, ()) rfl rfl
  obtain rfl : a = _ := hans
  exact ⟨rfl, rfl⟩

/-- So does `getattr`, whatever the reply held before the call. -/
theorem runs_getattr {eid : UInt64} {r : Int32 × Attr}
    (h : RunsOn cfg (ExtentClient.getattr eid) x r y) :
    ∃ a, r = (Rpc.statusCode (x.getattr eid a).1, (x.getattr eid a).2) ∧ y = x := by
  obtain ⟨a, z, ha, hr⟩ := Prog.runs_bind.1 h
  obtain ⟨rfl, rfl⟩ := Prog.runs_pure.1 hr
  obtain ⟨t, hans, rfl⟩ := (Prog.runs_ask.1 ha).exists_run Rpc.getattrMethod (eid, ()) rfl rfl
  obtain rfl : a = _ := hans
  exact ⟨t.a, rfl, rfl⟩

/-- `put` is a `put` of the server, at some time of its clock. -/
theorem runs_put {eid : UInt64} {buf : List UInt8} {r : Int32}
    (h : RunsOn cfg (ExtentClient.put eid buf) x r y) :
    ∃ now, r = Rpc.statusCode (x.put eid buf now).2 ∧ y = (x.put eid buf now).1 := by
  obtain ⟨a, z, ha, hr⟩ := Prog.runs_bind.1 h
  obtain ⟨rfl, rfl⟩ := Prog.runs_pure.1 hr
  obtain ⟨t, hans, rfl⟩ := (Prog.runs_ask.1 ha).exists_run Rpc.putMethod (eid, buf, ()) rfl rfl
  obtain rfl : a = _ := hans
  exact ⟨t.now, rfl, rfl⟩

/-- So is `setattr`. -/
theorem runs_setattr {eid : UInt64} {b : Attr} {r : Int32}
    (h : RunsOn cfg (ExtentClient.setattr eid b) x r y) :
    ∃ now, r = Rpc.statusCode (x.setattr eid b now).2 ∧ y = (x.setattr eid b now).1 := by
  obtain ⟨a, z, ha, hr⟩ := Prog.runs_bind.1 h
  obtain ⟨rfl, rfl⟩ := Prog.runs_pure.1 hr
  obtain ⟨t, hans, rfl⟩ := (Prog.runs_ask.1 ha).exists_run Rpc.setattrMethod (eid, b, ()) rfl rfl
  obtain rfl : a = _ := hans
  exact ⟨t.now, rfl, rfl⟩

/-- Binding leaves the extents alone. -/
theorem runs_new (h : RunsOn cfg ExtentClient.new x () y) : y = x := by
  obtain ⟨a, z, ha, hr⟩ := Prog.runs_bind.1 h
  obtain ⟨-, rfl⟩ := Prog.runs_pure.1 hr
  obtain ⟨t, -, rfl⟩ := (Prog.runs_ask.1 ha).exists_run (Rpc.bindMethod cfg.nonce) (0, ()) rfl rfl
  rfl

/-- `getfile` reads what it reads with the extents at hand. -/
theorem runs_getfile {inum : UInt64} {fin : FileInfo} {r : Status × FileInfo}
    (h : RunsOn cfg (getfile inum fin) x r y) : r = YfsClient.getfile x inum fin ∧ y = x := by
  obtain ⟨a, z, ha, hr⟩ := Prog.runs_bind.1 h
  obtain ⟨b, rfl, rfl⟩ := runs_getattr ha
  cases he : z.extents inum with
  | none =>
    have hattr : ∀ b, z.getattr inum b = (.noent, b) := fun b => by rw [ExtentServer.getattr, he]
    rw [hattr] at hr
    rw [YfsClient.getfile, hattr]
    exact Prog.runs_pure.1 hr
  | some e =>
    have hattr : ∀ b, z.getattr inum b = (.ok, e.eAttr) := fun b => by
      rw [ExtentServer.getattr, he]
    rw [hattr] at hr
    rw [YfsClient.getfile, hattr]
    exact Prog.runs_pure.1 hr

theorem runs_getdir {inum : UInt64} {din : DirInfo} {r : Status × DirInfo}
    (h : RunsOn cfg (getdir inum din) x r y) : r = YfsClient.getdir x inum din ∧ y = x := by
  obtain ⟨a, z, ha, hr⟩ := Prog.runs_bind.1 h
  obtain ⟨b, rfl, rfl⟩ := runs_getattr ha
  cases he : z.extents inum with
  | none =>
    have hattr : ∀ b, z.getattr inum b = (.noent, b) := fun b => by rw [ExtentServer.getattr, he]
    rw [hattr] at hr
    rw [YfsClient.getdir, hattr]
    exact Prog.runs_pure.1 hr
  | some e =>
    have hattr : ∀ b, z.getattr inum b = (.ok, e.eAttr) := fun b => by
      rw [ExtentServer.getattr, he]
    rw [hattr] at hr
    rw [YfsClient.getdir, hattr]
    exact Prog.runs_pure.1 hr

theorem runs_read {inum : UInt64} {n : UInt64} {off : Int64}
    {r : Option (Status × List UInt8)} (h : RunsOn cfg (read inum n off) x r y) :
    r = YfsClient.read x inum n off ∧ y = x := by
  obtain ⟨a, z, ha, hr⟩ := Prog.runs_bind.1 h
  obtain ⟨rfl, rfl⟩ := runs_get ha
  simp only [ne_eq, statusCode_eq_ok] at hr
  exact hr.ite Prog.runs_pure.1 fun hr => hr.ite Prog.runs_pure.1 fun hr =>
    hr.ite Prog.runs_pure.1 Prog.runs_pure.1

/-- The listing of a directory is that of the extents. -/
theorem runs_getDirContent {inum : UInt64}
    {r : Option (Status × List (List UInt8 × UInt64))}
    (h : RunsOn cfg (getDirContent inum) x r y) :
    r = YfsClient.getDirContent x inum ∧ y = x := by
  obtain ⟨a, z, ha, hr⟩ := Prog.runs_bind.1 h
  obtain ⟨rfl, rfl⟩ := runs_get ha
  simp only [ne_eq, statusCode_eq_ok] at hr
  exact hr.ite Prog.runs_pure.1 fun hr => hr.ite Prog.runs_pure.1 Prog.runs_pure.1

/-- A name is found where it is found in the extents. -/
theorem runs_ilookup {finum parentID : UInt64} {name : List UInt8} {r : Option UInt64}
    (h : RunsOn cfg (ilookup finum parentID name) x r y) :
    r = YfsClient.ilookup x finum parentID name ∧ y = x := by
  obtain ⟨a, z, ha, hr⟩ := Prog.runs_bind.1 h
  obtain ⟨rfl, rfl⟩ := runs_get ha
  simp only [ne_eq, statusCode_eq_ok] at hr
  refine hr.ite Prog.runs_pure.1 fun hr => ?_
  cases hfind : stringFind ((z.get parentID).2 ++ [colon]) (name ++ [colon]) 0 with
  | none =>
    rw [hfind] at hr
    exact Prog.runs_pure.1 hr
  | some pos =>
    rw [hfind] at hr
    exact Prog.runs_pure.1 hr

/-- `setattr` of `yfs_client` changes the extents as it does at hand. -/
theorem runs_yfs_setattr {fileID : UInt64} {finSize : UInt64} {a : Attr} {st : Status}
    (h : RunsOn cfg (setattr fileID finSize a) x st y) :
    ∃ now, (y, st) = YfsClient.setattr x fileID finSize a now := by
  obtain ⟨b, z, hb, hr⟩ := Prog.runs_bind.1 h
  obtain ⟨now, rfl, rfl⟩ := runs_setattr hb
  refine ⟨now, ?_⟩
  simp only [ne_eq, statusCode_eq_ok] at hr
  obtain ⟨rfl, rfl⟩ := hr.ite Prog.runs_pure.1 Prog.runs_pure.1
  rw [YfsClient.setattr]
  split <;> rfl

/-- A `get` and a `put`, and where the one fails or an exception comes
between them, no more than the first. -/
theorem runs_write {fileID : UInt64} {buf : List UInt8} {size off : Int32} {r : Option Status}
    (h : RunsOn cfg (write fileID buf size off) x r y) :
    ∃ now, YfsClient.write x fileID buf size off now = r.map fun st => (y, st) := by
  obtain ⟨a, z, ha, hr⟩ := Prog.runs_bind.1 h
  obtain ⟨rfl, rfl⟩ := runs_get ha
  simp only [ne_eq, statusCode_eq_ok] at hr
  by_cases hst : ¬ (z.get fileID).1 = .ok
  · rw [if_pos hst] at hr
    obtain ⟨rfl, rfl⟩ := Prog.runs_pure.1 hr
    refine ⟨0, ?_⟩
    rw [YfsClient.write, if_pos hst]
    rfl
  rw [if_neg hst] at hr
  -- the content is made or the write throws, whatever the clock is
  have heq : ∀ now, YfsClient.write z fileID buf size off now =
      ((stringSubstr buf 0 (toSize size)).bind fun b =>
        if off ≥ Int32.ofNat (z.get fileID).2.length then some ((z.get fileID).2 ++ b)
        else stringReplace (z.get fileID).2 (toSize off) (toSize size) b).map fun c =>
      ((z.put fileID c now).1, if (z.put fileID c now).2 ≠ .ok then .ioerr else .ok) := by
    intro now
    rw [YfsClient.write, if_neg hst, Option.map_bind]
    exact congrArg _ (funext fun b => congrArg (Option.map · _) (funext fun c =>
      (apply_ite (Prod.mk _) _ _ _).symm))
  generalize (stringSubstr buf 0 (toSize size)).bind _ = content' at hr heq
  cases content' with
  | none =>
    obtain ⟨rfl, rfl⟩ := Prog.runs_pure.1 hr
    exact ⟨0, heq 0⟩
  | some c =>
    obtain ⟨b, z', hb, hr⟩ := Prog.runs_bind.1 hr
    obtain ⟨now, rfl, rfl⟩ := runs_put hb
    simp only [statusCode_eq_ok] at hr
    obtain ⟨rfl, rfl⟩ := hr.ite Prog.runs_pure.1 Prog.runs_pure.1
    refine ⟨now, (heq now).trans ?_⟩
    rw [Option.map_some]
    split <;> rfl

/-- A `put` of the file, a `get` and a `put` of the directory: each at a
time of its own. -/
theorem runs_create {parentID inum : UInt64} {name : List UInt8} {st : Status}
    (h : RunsOn cfg (create parentID inum name) x st y) :
    ∃ now now', (y, st) = YfsClient.create x parentID inum name now now' := by
  obtain ⟨a, z, ha, hr⟩ := Prog.runs_bind.1 h
  obtain ⟨rfl, rfl⟩ := runs_get ha
  simp only [ne_eq, statusCode_eq_ok] at hr
  by_cases hst : ¬ (z.get parentID).1 = .ok
  · rw [if_pos hst] at hr
    obtain ⟨rfl, rfl⟩ := Prog.runs_pure.1 hr
    refine ⟨0, 0, ?_⟩
    rw [YfsClient.create, if_pos hst]
  rw [if_neg hst] at hr
  -- the file, if it is one
  obtain ⟨r₁, z₁, h₁, hr⟩ := Prog.runs_bind.1 hr
  obtain ⟨now, rfl, rfl⟩ : ∃ now,
      r₁ = Rpc.statusCode (if YfsClient.isfile inum then z.put inum [] now else (z, .ok)).2 ∧
      z₁ = (if YfsClient.isfile inum then z.put inum [] now else (z, .ok)).1 := by
    by_cases hfile : YfsClient.isfile inum = true
    · rw [if_pos hfile] at h₁
      obtain ⟨now, rfl, rfl⟩ := runs_put h₁
      exact ⟨now, by rw [if_pos hfile], by rw [if_pos hfile]⟩
    · rw [if_neg hfile] at h₁
      obtain ⟨rfl, rfl⟩ := Prog.runs_pure.1 h₁
      exact ⟨0, by rw [if_neg hfile]; rfl, by rw [if_neg hfile]⟩
  generalize hmade : (if YfsClient.isfile inum then z.put inum [] now else (z, .ok)) = made at hr
  -- what is left to do is the second put, of the directory
  have heq : ∀ now', YfsClient.create z parentID inum name now now' =
      if made.2 ≠ .ok then (made.1, .ioerr)
      else
        ((made.1.put parentID ((if (z.get parentID).2 ≠ [] then (z.get parentID).2 ++ [colon]
            else (z.get parentID).2) ++ name ++ [colon] ++ YfsClient.filename inum) now').1,
          if (made.1.put parentID ((if (z.get parentID).2 ≠ [] then (z.get parentID).2 ++ [colon]
            else (z.get parentID).2) ++ name ++ [colon] ++ YfsClient.filename inum) now').2 ≠ .ok
          then .ioerr else .ok) := by
    intro now'
    rw [YfsClient.create, if_neg hst]
    dsimp only
    rw [hmade]
    exact congrArg _ (apply_ite (Prod.mk _) _ _ _).symm
  simp only [statusCode_eq_ok] at hr
  by_cases hok : ¬ made.2 = .ok
  · rw [if_pos hok] at hr
    obtain ⟨rfl, rfl⟩ := Prog.runs_pure.1 hr
    exact ⟨now, 0, ((heq 0).trans (if_pos hok)).symm⟩
  · rw [if_neg hok] at hr
    obtain ⟨r₂, z₂, h₂, hr⟩ := Prog.runs_bind.1 hr
    obtain ⟨now', rfl, rfl⟩ := runs_put h₂
    simp only [statusCode_eq_ok] at hr
    obtain ⟨rfl, rfl⟩ := hr.ite Prog.runs_pure.1 Prog.runs_pure.1
    refine ⟨now, now', Eq.trans ?_ ((heq now').trans (if_neg hok)).symm⟩
    simp only [ne_eq]

section

variable {w : Ambient} {parent ino : UInt64} {name : List UInt8} {rs : List FuseReply}

/-- An extent is created, and its attributes are fetched. -/
theorem runs_create_getfile {id : UInt64} {f : Status → α} {g : FileInfo → α} {a : α}
    (h : RunsOn cfg (do
      let r ← create parent id name
      if r ≠ .ok then return f r
      else
        let i ← getfile id w.info
        if i.1 ≠ .ok then return f i.1 else return g i.2) x a y) :
    ∃ now now', (y, a) =
      let r := YfsClient.create x parent id name now now'
      if r.2 ≠ .ok then (r.1, f r.2)
      else
        let i := YfsClient.getfile r.1 id w.info
        if i.1 ≠ .ok then (r.1, f i.1) else (r.1, g i.2) := by
  obtain ⟨st, z, hst, hr⟩ := Prog.runs_bind.1 h
  obtain ⟨now, now', heq⟩ := runs_create hst
  refine ⟨now, now', ?_⟩
  rw [← heq]
  dsimp only
  by_cases hok : st ≠ .ok
  · rw [if_pos hok] at hr ⊢
    obtain ⟨rfl, rfl⟩ := Prog.runs_pure.1 hr
    rfl
  · rw [if_neg hok] at hr ⊢
    obtain ⟨i, z', hi, hr⟩ := Prog.runs_bind.1 hr
    obtain ⟨rfl, rfl⟩ := runs_getfile hi
    obtain ⟨rfl, rfl⟩ := hr.ite Prog.runs_pure.1 Prog.runs_pure.1
    exact apply_ite (Prod.mk _) _ _ _

/-- What `create` and `mknod` share. -/
theorem runs_createhelper {r : Status × EntryParam}
    (h : RunsOn cfg (fuseserverCreatehelper w parent name) x r y) :
    ∃ now now', (y, r) = Yfs.fuseserverCreatehelper x (w.withClock now now') parent name := by
  obtain ⟨now, now', heq⟩ := runs_create_getfile (f := fun st => (st, w.entry))
    (g := fun i => (.ok, ⟨fileID w, { w.entry.attr with ino := fileID w }.ofFile i⟩)) h
  refine ⟨now, now', ?_⟩
  rw [heq]
  rfl

/-- `fuseserver_mkdir`, with the clock at its two puts. -/
theorem runs_fuse_mkdir (h : RunsOn cfg (fuseserverMkdir w parent name) x rs y) :
    ∃ now now', (y, rs) = Yfs.fuseserverMkdir x (w.withClock now now') parent name := by
  obtain ⟨now, now', heq⟩ := runs_create_getfile (f := fun _ => [FuseReply.err .enosys])
    (g := fun i => [FuseReply.entry ⟨dirID w, { w.entry.attr with
      ino := dirID w, mode := dirMode, nlink := 2, atime := i.atime.toInt64,
      mtime := i.mtime.toInt64, ctime := i.ctime.toInt64 }⟩]) h
  refine ⟨now, now', ?_⟩
  rw [heq]
  rfl

/-- The helper is called, and what it returns is replied with. -/
theorem runs_reply {f : EntryParam → FuseReply}
    (h : RunsOn cfg (do
      let r ← fuseserverCreatehelper w parent name
      if r.1 = .ok then return [f r.2] else return [.err .enoent]) x rs y) :
    ∃ now now', (y, rs) =
      let r := Yfs.fuseserverCreatehelper x (w.withClock now now') parent name
      if r.2.1 = .ok then (r.1, [f r.2.2]) else (r.1, [.err .enoent]) := by
  obtain ⟨r, z, hz, hr⟩ := Prog.runs_bind.1 h
  obtain ⟨now, now', heq⟩ := runs_createhelper hz
  obtain ⟨rfl, rfl⟩ := hr.ite Prog.runs_pure.1 Prog.runs_pure.1
  refine ⟨now, now', ?_⟩
  rw [← heq]
  exact apply_ite (Prod.mk _) _ _ _

theorem runs_fuse_create (h : RunsOn cfg (fuseserverCreate w parent name) x rs y) :
    ∃ now now', (y, rs) = Yfs.fuseserverCreate x (w.withClock now now') parent name :=
  runs_reply h

theorem runs_fuse_mknod (h : RunsOn cfg (fuseserverMknod w parent name) x rs y) :
    ∃ now now', (y, rs) = Yfs.fuseserverMknod x (w.withClock now now') parent name :=
  runs_reply h

/-- `fuseserver_write`, which may end in an exception here as there. -/
theorem runs_fuse_write {buf : List UInt8} {size : UInt64} {off : Int64}
    {r : Option (List FuseReply)} (h : RunsOn cfg (fuseserverWrite ino buf size off) x r y) :
    ∃ now, Yfs.fuseserverWrite x (w.withClock now now) ino buf size off =
      r.map fun rs => (y, rs) := by
  obtain ⟨st, z, hst, hr⟩ := Prog.runs_bind.1 h
  obtain ⟨now, heq⟩ := runs_write hst
  obtain ⟨rfl, rfl⟩ := Prog.runs_pure.1 hr
  have hwrite : YfsClient.write x ino (cString buf) size.toUInt32.toInt32 off.toInt32
      (w.withClock now now).now = st.map fun st => (y, st) := heq
  refine ⟨now, ?_⟩
  rw [Yfs.fuseserverWrite, hwrite, Option.map_map, Option.map_map]
  exact congrArg (Option.map · st) (funext fun st => (apply_ite (Prod.mk _) _ _ _).symm)

theorem runs_fuse_setattr {stSize : Int64} {toSet : UInt32}
    (h : RunsOn cfg (fuseserverSetattr w ino stSize toSet) x rs y) :
    ∃ now, (y, rs) = Yfs.fuseserverSetattr x (w.withClock now now) ino stSize toSet := by
  rw [fuseserverSetattr] at h
  by_cases hset : fuseSetAttrSize &&& toSet ≠ 0
  · rw [if_pos hset] at h
    obtain ⟨st, z, hst, hr⟩ := Prog.runs_bind.1 h
    obtain ⟨now, heq⟩ := runs_yfs_setattr hst
    have hsetattr : YfsClient.setattr x ino stSize.toUInt64 (w.withClock now now).attr
        (w.withClock now now).now = (z, st) := heq.symm
    refine ⟨now, ?_⟩
    rw [Yfs.fuseserverSetattr, if_pos hset]
    dsimp only
    rw [hsetattr]
    dsimp only
    by_cases hok : st ≠ .ok
    · rw [if_pos hok] at hr ⊢
      obtain ⟨rfl, rfl⟩ := Prog.runs_pure.1 hr
      rfl
    · rw [if_neg hok] at hr ⊢
      obtain ⟨g, z', hg, hr⟩ := Prog.runs_bind.1 hr
      obtain ⟨rfl, rfl⟩ := runs_getfile hg
      obtain ⟨rfl, rfl⟩ := hr.ite Prog.runs_pure.1 Prog.runs_pure.1
      exact apply_ite (Prod.mk _) _ _ _
  · rw [if_neg hset] at h
    obtain ⟨rfl, rfl⟩ := Prog.runs_pure.1 h
    refine ⟨0, ?_⟩
    rw [Yfs.fuseserverSetattr, if_neg hset]

/-- The handlers that only read leave the extents as they are. -/
theorem runs_fuse_getattr (h : RunsOn cfg (fuseserverGetattr w ino) x rs y) :
    rs = Yfs.fuseserverGetattr x w ino ∧ y = x := by
  obtain ⟨r, z, hz, hr⟩ := Prog.runs_bind.1 h
  obtain ⟨rfl, rfl⟩ : r = Yfs.fuseGetattr x w ino ∧ z = x := by
    rw [YfsProcess.fuseGetattr] at hz
    refine hz.ite (fun hz => ?_) fun hz => ?_
    · obtain ⟨g, z', hg, hz⟩ := Prog.runs_bind.1 hz
      obtain ⟨rfl, rfl⟩ := runs_getfile hg
      exact hz.ite Prog.runs_pure.1 Prog.runs_pure.1
    · obtain ⟨g, z', hg, hz⟩ := Prog.runs_bind.1 hz
      obtain ⟨rfl, rfl⟩ := runs_getdir hg
      exact hz.ite Prog.runs_pure.1 Prog.runs_pure.1
  exact hr.ite Prog.runs_pure.1 Prog.runs_pure.1

theorem runs_fuse_read {size : UInt64} {off : Int64} {r : Option (List FuseReply)}
    (h : RunsOn cfg (fuseserverRead ino size off) x r y) :
    r = Yfs.fuseserverRead x ino size off ∧ y = x := by
  obtain ⟨a, z, ha, hr⟩ := Prog.runs_bind.1 h
  obtain ⟨rfl, rfl⟩ := runs_read ha
  exact Prog.runs_pure.1 hr

theorem runs_fuse_lookup {finum : UInt64} {r : Option (List FuseReply)}
    (h : RunsOn cfg (fuseserverLookup w finum parent name) x r y) :
    r = Yfs.fuseserverLookup x w finum parent name ∧ y = x := by
  obtain ⟨a, z, ha, hr⟩ := Prog.runs_bind.1 h
  obtain ⟨rfl, rfl⟩ := runs_ilookup ha
  rw [Yfs.fuseserverLookup]
  cases hinum : YfsClient.ilookup z finum parent name with
  | none =>
    rw [hinum] at hr
    exact Prog.runs_pure.1 hr
  | some inum =>
    rw [hinum] at hr
    rw [Option.map_some, apply_ite some, apply_ite some]
    refine hr.ite Prog.runs_pure.1 fun hr => hr.ite (fun hr => ?_) fun hr => ?_
    · obtain ⟨g, z', hg, hr⟩ := Prog.runs_bind.1 hr
      obtain ⟨rfl, rfl⟩ := runs_getfile hg
      exact Prog.runs_pure.1 hr
    · obtain ⟨g, z', hg, hr⟩ := Prog.runs_bind.1 hr
      obtain ⟨rfl, rfl⟩ := runs_getdir hg
      exact Prog.runs_pure.1 hr

theorem runs_fuse_readdir {lib : LibFuse} {size : UInt64} {off : Int64}
    {r : Option (List FuseReply)} (h : RunsOn cfg (fuseserverReaddir lib ino size off) x r y) :
    r = Yfs.fuseserverReaddir lib x ino size off ∧ y = x := by
  rw [fuseserverReaddir] at h
  refine h.ite Prog.runs_pure.1 fun hr => ?_
  obtain ⟨a, z, ha, hr⟩ := Prog.runs_bind.1 hr
  obtain ⟨rfl, rfl⟩ := runs_getDirContent ha
  exact Prog.runs_pure.1 hr

/-- **One request.** -/
theorem runs_serve {lib : LibFuse} {finum : UInt64} {req : FuseReq}
    {out : Option (List FuseReply)} (h : RunsOn cfg (serve lib w finum req) x out y) :
    ∃ now now', req.serve lib x (w.withClock now now') finum = out.map fun rs => (y, rs) := by
  have hmap : ∀ {p : YfsProg (List FuseReply)}, RunsOn cfg (some <$> p) x out y →
      ∃ rs, RunsOn cfg p x rs y ∧ out = some rs := by
    intro p hp
    obtain ⟨rs, z, hp, hr⟩ := Prog.runs_bind.1 hp
    obtain ⟨rfl, rfl⟩ := Prog.runs_pure.1 hr
    exact ⟨rs, hp, rfl⟩
  cases req with
  | getattr ino =>
    obtain ⟨rs, hp, rfl⟩ := hmap h
    obtain ⟨rfl, rfl⟩ := runs_fuse_getattr hp
    exact ⟨0, 0, rfl⟩
  | read ino size off =>
    obtain ⟨rfl, rfl⟩ := runs_fuse_read h
    exact ⟨0, 0, rfl⟩
  | lookup parent name =>
    obtain ⟨rfl, rfl⟩ := runs_fuse_lookup h
    exact ⟨0, 0, rfl⟩
  | readdir ino size off =>
    obtain ⟨rfl, rfl⟩ := runs_fuse_readdir h
    exact ⟨0, 0, rfl⟩
  | «open» ino =>
    obtain ⟨rfl, rfl⟩ := Prog.runs_pure.1 h
    exact ⟨0, 0, rfl⟩
  | unlink parent name =>
    obtain ⟨rfl, rfl⟩ := Prog.runs_pure.1 h
    exact ⟨0, 0, rfl⟩
  | statfs =>
    obtain ⟨rfl, rfl⟩ := Prog.runs_pure.1 h
    exact ⟨0, 0, rfl⟩
  | change op =>
    cases op with
    | create parent name =>
      obtain ⟨rs, hp, rfl⟩ := hmap h
      obtain ⟨now, now', heq⟩ := runs_fuse_create hp
      exact ⟨now, now', congrArg some heq.symm⟩
    | mknod parent name =>
      obtain ⟨rs, hp, rfl⟩ := hmap h
      obtain ⟨now, now', heq⟩ := runs_fuse_mknod hp
      exact ⟨now, now', congrArg some heq.symm⟩
    | mkdir parent name =>
      obtain ⟨rs, hp, rfl⟩ := hmap h
      obtain ⟨now, now', heq⟩ := runs_fuse_mkdir hp
      exact ⟨now, now', congrArg some heq.symm⟩
    | write ino buf size off =>
      obtain ⟨now, heq⟩ := runs_fuse_write h
      exact ⟨now, now, heq⟩
    | setattr ino stSize toSet =>
      obtain ⟨rs, hp, rfl⟩ := hmap h
      obtain ⟨now, heq⟩ := runs_fuse_setattr hp
      exact ⟨now, now, congrArg some heq.symm⟩

end

/-- **All requests.** -/
theorem runs_serveAll {lib : LibFuse} {reqs : List Asked} {out : Option (List (List FuseReply))}
    (h : RunsOn cfg (serveAll lib reqs) x out y) :
    ∃ clocks : List (UInt32 × UInt32), clocks.length = reqs.length ∧
      trace (Asked.serve lib) x (List.zipWith Asked.withClock reqs clocks) =
        out.map fun rs => (y, rs) := by
  induction reqs generalizing x out with
  | nil =>
    obtain ⟨rfl, rfl⟩ := Prog.runs_pure.1 h
    exact ⟨[], rfl, rfl⟩
  | cons a reqs ih =>
    obtain ⟨first, z, hfirst, hr⟩ := Prog.runs_bind.1 h
    obtain ⟨now, now', heq⟩ := runs_serve hfirst
    have hserve : Asked.serve lib x (a.withClock (now, now')) = first.map fun rs => (z, rs) := heq
    cases first with
    | none =>
      obtain ⟨rfl, rfl⟩ := Prog.runs_pure.1 hr
      -- the rest is not reached
      refine ⟨(now, now') :: reqs.map fun _ => (0, 0), by simp, ?_⟩
      rw [List.zipWith_cons_cons, trace, hserve]
      rfl
    | some rs =>
      obtain ⟨rest, z', hrest, hr⟩ := Prog.runs_bind.1 hr
      obtain ⟨rfl, rfl⟩ := Prog.runs_pure.1 hr
      obtain ⟨clocks, hlen, htrace⟩ := ih hrest
      refine ⟨(now, now') :: clocks, by simp [hlen], ?_⟩
      rw [List.zipWith_cons_cons, trace, hserve, Option.map_some, Option.bind_some, htrace,
        Option.map_map, Option.map_map]
      rfl

/-! ## Over RPC -/

section

variable {w : Ambient} {parent ino inum : UInt64} {name : List UInt8}

/-- The calls have the types of the methods. -/
abbrev Typed (cfg : Rpc.Config Unit (ExtentServer × Rpc.Ambient)) (p : YfsProg α) : Prop :=
  p.Calls (RemoteCall.Typed (methods cfg extentMethods))

/-- A call with the types of the method it calls. -/
theorem typed_ask {c : RemoteCall} (m : Rpc.Method ExtentServer Rpc.Ambient)
    (hm : methods cfg extentMethods c.proc.toInt32 = some m) (hts : c.ts = m.args)
    (hret : c.ret = m.ret) : Typed cfg (Prog.ask c) := by
  refine Prog.calls_ask.2 fun m' hm' => ?_
  obtain rfl := Option.some.inj (hm.symm.trans hm')
  exact ⟨hts, hret⟩

theorem typed_pure (a : α) : Typed cfg (pure a : YfsProg α) := Prog.calls_pure _ a

theorem typed_get (eid : UInt64) : Typed cfg (ExtentClient.get eid) :=
  (typed_ask Rpc.getMethod rfl rfl rfl).bind fun _ => typed_pure _

theorem typed_getattr (eid : UInt64) : Typed cfg (ExtentClient.getattr eid) :=
  (typed_ask Rpc.getattrMethod rfl rfl rfl).bind fun _ => typed_pure _

theorem typed_put (eid : UInt64) (buf : List UInt8) : Typed cfg (ExtentClient.put eid buf) :=
  (typed_ask Rpc.putMethod rfl rfl rfl).bind fun _ => typed_pure _

theorem typed_setattr (eid : UInt64) (a : Attr) : Typed cfg (ExtentClient.setattr eid a) :=
  (typed_ask Rpc.setattrMethod rfl rfl rfl).bind fun _ => typed_pure _

theorem typed_new : Typed cfg ExtentClient.new :=
  (typed_ask (Rpc.bindMethod cfg.nonce) rfl rfl rfl).bind fun _ => typed_pure _

theorem typed_getfile (fin : FileInfo) : Typed cfg (getfile inum fin) :=
  (typed_getattr inum).bind fun _ => .ite (typed_pure _) (typed_pure _)

theorem typed_getdir (din : DirInfo) : Typed cfg (getdir inum din) :=
  (typed_getattr inum).bind fun _ => .ite (typed_pure _) (typed_pure _)

/-- All calls of `create` are so. -/
theorem typed_create : Typed cfg (create parent inum name) := by
  refine (typed_get parent).bind fun r => .ite (typed_pure _) (.bind ?_ fun _ => ?_)
  · exact .ite (typed_put inum []) (typed_pure _)
  · refine .ite (typed_pure _) ((typed_put parent _).bind fun _ => ?_)
    exact .ite (typed_pure _) (typed_pure _)

/-- All calls of `write` are so. -/
theorem typed_write (buf : List UInt8) (size off : Int32) : Typed cfg (write ino buf size off) := by
  refine (typed_get ino).bind fun r => .ite (typed_pure _) ?_
  dsimp only
  split
  · exact typed_pure _
  · exact (typed_put ino _).bind fun _ => .ite (typed_pure _) (typed_pure _)

/-- The handlers make no calls but those of `yfs_client`. -/
theorem typed_createhelper : Typed cfg (fuseserverCreatehelper w parent name) :=
  typed_create.bind fun _ => .ite (typed_pure _)
    ((typed_getfile _).bind fun _ => .ite (typed_pure _) (typed_pure _))

theorem typed_mkdir : Typed cfg (fuseserverMkdir w parent name) :=
  typed_create.bind fun _ => .ite (typed_pure _)
    ((typed_getfile _).bind fun _ => .ite (typed_pure _) (typed_pure _))

theorem typed_fuse_setattr (stSize : Int64) (toSet : UInt32) :
    Typed cfg (fuseserverSetattr w ino stSize toSet) := by
  refine .ite (Prog.Calls.bind ?_ fun _ => .ite (typed_pure _) ?_) (typed_pure _)
  · exact (typed_setattr ino _).bind fun _ => .ite (typed_pure _) (typed_pure _)
  · exact (typed_getfile _).bind fun _ => .ite (typed_pure _) (typed_pure _)

theorem typed_fuse_getattr : Typed cfg (fuseserverGetattr w ino) := by
  refine Prog.Calls.bind ?_ fun _ => .ite (typed_pure _) (typed_pure _)
  refine .ite ?_ ?_
  · exact (typed_getfile _).bind fun _ => .ite (typed_pure _) (typed_pure _)
  · exact (typed_getdir _).bind fun _ => .ite (typed_pure _) (typed_pure _)

/-- A lookup asks for the directory, and then for what it found. -/
theorem typed_lookup (finum : UInt64) : Typed cfg (fuseserverLookup w finum parent name) := by
  refine Prog.Calls.bind ?_ fun r => ?_
  · refine (typed_get parent).bind fun _ => .ite (typed_pure _) ?_
    dsimp only
    split <;> exact typed_pure _
  · cases r with
    | none => exact typed_pure _
    | some inum =>
      refine .ite (typed_pure _) (.ite ?_ ?_)
      · exact (typed_getfile _).bind fun _ => typed_pure _
      · exact (typed_getdir _).bind fun _ => typed_pure _

/-- Every call of a handler is one of the extent server's methods. -/
theorem typed_serve (lib : LibFuse) (finum : UInt64) (req : FuseReq) :
    Typed cfg (serve lib w finum req) := by
  cases req with
  | getattr ino => exact typed_fuse_getattr.bind fun _ => typed_pure _
  | read ino size off =>
    refine Prog.Calls.bind ((typed_get ino).bind fun _ => ?_) fun _ => typed_pure _
    exact .ite (typed_pure _) (.ite (typed_pure _) (.ite (typed_pure _) (typed_pure _)))
  | lookup parent name => exact typed_lookup finum
  | readdir ino size off =>
    refine .ite (typed_pure _) (Prog.Calls.bind ((typed_get ino).bind fun _ => ?_) fun _ =>
      typed_pure _)
    exact .ite (typed_pure _) (.ite (typed_pure _) (typed_pure _))
  | change op =>
    cases op with
    | create parent name =>
      exact (typed_createhelper.bind fun _ => .ite (typed_pure _) (typed_pure _)).bind fun _ =>
        typed_pure _
    | mknod parent name =>
      exact (typed_createhelper.bind fun _ => .ite (typed_pure _) (typed_pure _)).bind fun _ =>
        typed_pure _
    | mkdir parent name => exact typed_mkdir.bind fun _ => typed_pure _
    | write ino buf size off => exact (typed_write _ _ _).bind fun _ => typed_pure _
    | setattr ino stSize toSet => exact (typed_fuse_setattr _ _).bind fun _ => typed_pure _
  | _ => exact typed_pure _

end

/-- **Every call of the process** has the types of its method, whatever the
requests are. -/
theorem typed_main (lib : LibFuse) (reqs : List Asked) : Typed cfg (main lib reqs) := by
  refine typed_new.bind fun _ => ?_
  induction reqs with
  | nil => exact typed_pure _
  | cons a reqs ih =>
    refine (typed_serve lib a.finum a.req).bind fun r => ?_
    cases r with
    | none => exact typed_pure _
    | some rs => exact ih.bind fun _ => typed_pure _

/-- **The process answers as with the extents at hand.** For every list of
requests and every run of the RPC system under the process that leads to
its end and frees no buffer that is yet to be sent: the replies, and the
extents, are those of the handlers served one after the other on the
extents, each with some values of the clock, so long as no stale copy of a
request arrives and no call fails. Where a handler breaks off, it breaks
off there as well. -/
theorem process_follows {lib : LibFuse} {now : UInt32} {reqs : List Asked}
    {acts : List (Rpc.ThreadAct Unit ExtentServer Rpc.Ambient)}
    {t : Rpc.ThreadSys Unit ExtentServer Rpc.Ambient (Option (List (List FuseReply)))}
    {out : Option (List (List FuseReply))} (hreg : Rpc.Serves cfg extentMethods)
    (hdist : Rpc.Distinct cfg ())
    (hfew : acts.countP (Rpc.ThreadAct.isCallOf ()) < 2 ^ 32 - 1)
    (hkeeps : Steps (Rpc.ThreadSys.step cfg extentMethods) (Rpc.ThreadSys.KeepsUsed cfg)
      (.init (fun _ => main lib reqs) (.new now)) acts)
    (hexec : exec (Rpc.ThreadSys.step cfg extentMethods)
      (.init (fun _ => main lib reqs) (.new now)) acts = some t)
    (hstale : Rpc.NoStale (cfg.cltNonce ()) (Rpc.arrivals t.remote.sys.log))
    (hok : t.failed = false) (hdone : t.threads () = .done out) :
    ∃ clocks : List (UInt32 × UInt32), clocks.length = reqs.length ∧
      trace (Asked.serve lib) (.new now) (List.zipWith Asked.withClock reqs clocks) =
        out.map fun rs => (t.remote.obj, rs) := by
  have htyped : Typed cfg (main lib reqs) := typed_main lib reqs
  have horderly := Rpc.orderly_of_keepsUsed hreg hdist hfew htyped hkeeps hexec hstale hok
  have hlin := Rpc.linearizable_of_threads hreg (fun _ => hdist) (fun _ => hfew)
    (fun _ => htyped) horderly hexec (fun _ => hstale)
  choose calls hcalls using Rpc.inTurn_of_exec hexec hok
  obtain ⟨qs, hqs, hnear⟩ := Rpc.atomic_of_inTurn hlin hcalls
  have hdone' : qs () = .done out := by
    rcases hnear () with heq | ⟨-, c, next, a, hcall, -⟩
    · rw [heq, hdone]
    · rw [hdone] at hcall
      cases hcall
  have hruns := Prog.runs_of_atomic hqs hdone'
  obtain ⟨⟨⟩, z, hnew, hall⟩ := Prog.runs_bind.1 hruns
  obtain rfl := runs_new hnew
  exact runs_serveAll hall

/-- The process is asked for the attributes of the root. -/
def rootAsked : List Asked := [⟨.getattr 1, drawing ⟨0, Nat.two_pow_pos 31⟩, 0⟩]

/-- It replies with those that the extent server has. -/
theorem process_follows_rootAsked : ∃ t,
    exec (Rpc.ThreadSys.step Rpc.extentConfig extentMethods)
      (.init (fun _ => main fuseDirents rootAsked) (.new 50)) Rpc.twoCalls = some t ∧
    ∃ clocks : List (UInt32 × UInt32), clocks.length = rootAsked.length ∧
      trace (Asked.serve fuseDirents) (.new 50) (List.zipWith Asked.withClock rootAsked clocks) =
        some (t.remote.obj, [[.attr ⟨1, dirMode, 2, 50, 50, 50, 0⟩]]) := by
  have h : (exec (Rpc.ThreadSys.step Rpc.extentConfig extentMethods)
      (.init (fun _ => main fuseDirents rootAsked) (.new 50)) Rpc.twoCalls).any (fun t =>
        decide ((t.threads ()).outcome = some (some [[.attr ⟨1, dirMode, 2, 50, 50, 50, 0⟩]])) &&
          (!t.failed && decide ((Rpc.arrivals t.remote.sys.log).map fun h =>
            (h.cltNonce, h.xid.toUInt32.toNat)).Nodup)) = true := by
    decide +kernel
  obtain ⟨t, ht, hany⟩ := (Option.any_eq_true _ _).1 h
  obtain ⟨hout, hany⟩ := Bool.and_eq_true_iff.1 hany
  obtain ⟨hok, hnodup⟩ := Bool.and_eq_true_iff.1 hany
  have hdist : Rpc.Distinct Rpc.extentConfig () := ⟨by simp [Rpc.extentConfig], fun _ _ => rfl⟩
  have hdone := Prog.eq_done_of_outcome (of_decide_eq_true hout)
  exact ⟨t, ht, process_follows (fun _ => rfl) hdist
    (Nat.lt_of_le_of_lt List.countP_le_length (by decide)) (by decide +kernel) ht
    (Rpc.noStale_of_nodup _ (of_decide_eq_true hnodup)) (by simpa using hok) hdone⟩

end YfsProcess

end Yfs
