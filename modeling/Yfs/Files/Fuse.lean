import Yfs.Files.Directory

/-!
# The FUSE operations

The handlers of `fuse.cc`. Those that change the file system, `create`,
`mknod`, `mkdir`, `write` and `setattr`, are a call of `yfs_client` and,
for the attributes in the reply, one of `getfile` after it. They return
the extents they leave and the replies they send; the others the replies.
-/

namespace Yfs

/-- `yfs_client::fileinfo`. -/
structure FileInfo where
  size : UInt64
  atime : UInt64
  mtime : UInt64
  ctime : UInt64
deriving DecidableEq

/-- `yfs_client::getfile`: the status, and what `fin` is then. Where the
`getattr` fails nothing is assigned to it. -/
def YfsClient.getfile (s : ExtentServer) (inum : UInt64) (fin : FileInfo) : Status × FileInfo :=
  let r := s.getattr inum ⟨0, 0, 0, 0⟩
  if r.1 ≠ .ok then (.ioerr, fin)
  else (.ok, ⟨r.2.size.toUInt64, r.2.atime.toUInt64, r.2.mtime.toUInt64, r.2.ctime.toUInt64⟩)

/-- The fields of `struct stat` that `fuse.cc` assigns to. -/
structure Stat where
  ino : UInt64
  mode : UInt32
  nlink : UInt64
  atime : Int64
  mtime : Int64
  ctime : Int64
  size : Int64
deriving DecidableEq

/-- `struct fuse_entry_param`. -/
structure EntryParam where
  ino : UInt64
  attr : Stat
deriving DecidableEq

/-- The error numbers a handler replies with. -/
inductive FuseErr where
  | enoent
  | enosys
  | enotdir
deriving DecidableEq

/-- The functions `fuse_reply_*`, with what they send. -/
inductive FuseReply where
  | err (e : FuseErr)
  | entry (e : EntryParam)
  | create (e : EntryParam)
  | attr (st : Stat)
  | write (size : UInt64)
  | buf (bytes : List UInt8)
  | «open»
  | statfs (namemax bsize : UInt64)
deriving DecidableEq

/-- What an operation takes from its surroundings: the number `random`
returns, of 31 bits, the clock at its requests, and what the variables
hold that it does not assign to before it uses them. -/
structure Ambient where
  random : Fin (2 ^ 31)
  now : UInt32
  now' : UInt32
  entry : EntryParam
  stat : Stat
  info : FileInfo
  attr : Attr

/-- `S_IFREG | 0666`. -/
def fileMode : UInt32 := 0o100666

/-- `S_IFDIR | 0777`. -/
def dirMode : UInt32 := 0o40777

/-- The attributes from a `fileinfo` for a file; the inode stays. -/
def Stat.ofFile (st : Stat) (info : FileInfo) : Stat :=
  { st with
    mode := fileMode, nlink := 1, atime := info.atime.toInt64, mtime := info.mtime.toInt64,
    ctime := info.ctime.toInt64, size := info.size.toInt64 }

/-- The inum of a new file. -/
def fileID (w : Ambient) : UInt64 := UInt64.ofNat w.random ||| 0x80000000

/-- The inum of a new directory. -/
def dirID (w : Ambient) : UInt64 := UInt64.ofNat w.random

/-- `fuseserver_createhelper`: the status, and what `e` is then. -/
def fuseserverCreatehelper (s : ExtentServer) (w : Ambient) (parent : UInt64) (name : List UInt8) :
    ExtentServer × Status × EntryParam :=
  let r := YfsClient.create s parent (fileID w) name w.now w.now'
  if r.2 ≠ .ok then (r.1, r.2, w.entry)
  else
    let g := YfsClient.getfile r.1 (fileID w) w.info
    if g.1 ≠ .ok then (r.1, g.1, w.entry)
    else (r.1, .ok, ⟨fileID w, { w.entry.attr with ino := fileID w }.ofFile g.2⟩)

/-- `fuseserver_create`. -/
def fuseserverCreate (s : ExtentServer) (w : Ambient) (parent : UInt64) (name : List UInt8) :
    ExtentServer × List FuseReply :=
  let r := fuseserverCreatehelper s w parent name
  if r.2.1 = .ok then (r.1, [.create r.2.2]) else (r.1, [.err .enoent])

/-- `fuseserver_mknod`. -/
def fuseserverMknod (s : ExtentServer) (w : Ambient) (parent : UInt64) (name : List UInt8) :
    ExtentServer × List FuseReply :=
  let r := fuseserverCreatehelper s w parent name
  if r.2.1 = .ok then (r.1, [.entry r.2.2]) else (r.1, [.err .enoent])

/-- `fuseserver_mkdir`. -/
def fuseserverMkdir (s : ExtentServer) (w : Ambient) (parent : UInt64) (name : List UInt8) :
    ExtentServer × List FuseReply :=
  let r := YfsClient.create s parent (dirID w) name w.now w.now'
  if r.2 ≠ .ok then (r.1, [.err .enosys])
  else
    let g := YfsClient.getfile r.1 (dirID w) w.info
    if g.1 ≠ .ok then (r.1, [.err .enosys])
    else
      let st : Stat :=
        { w.entry.attr with
          ino := dirID w, mode := dirMode, nlink := 2, atime := g.2.atime.toInt64,
          mtime := g.2.mtime.toInt64, ctime := g.2.ctime.toInt64 }
      (r.1, [.entry ⟨dirID w, st⟩])

/-- The string that a `char *` is converted to: `buf` is what is in
memory there. -/
def cString (buf : List UInt8) : List UInt8 := buf.takeWhile (· ≠ 0)

/-- `fuseserver_write`. The size and the offset are narrowed to `int`; an
exception is `none`. -/
def fuseserverWrite (s : ExtentServer) (w : Ambient) (ino : UInt64) (buf : List UInt8)
    (size : UInt64) (off : Int64) : Option (ExtentServer × List FuseReply) :=
  (YfsClient.write s ino (cString buf) size.toUInt32.toInt32 off.toInt32 w.now).map fun r =>
    if r.2 ≠ .ok then (r.1, [.err .enosys]) else (r.1, [.write size])

/-- `FUSE_SET_ATTR_SIZE`. -/
def fuseSetAttrSize : UInt32 := 8

/-- `fuseserver_setattr`, of `attr` only the size. -/
def fuseserverSetattr (s : ExtentServer) (w : Ambient) (ino : UInt64) (stSize : Int64)
    (toSet : UInt32) : ExtentServer × List FuseReply :=
  if fuseSetAttrSize &&& toSet ≠ 0 then
    let info := { w.info with size := stSize.toUInt64 }
    let r := YfsClient.setattr s ino info.size w.attr w.now
    if r.2 ≠ .ok then (r.1, [.err .enosys])
    else
      let g := YfsClient.getfile r.1 ino info
      if g.1 ≠ .ok then (r.1, [.err .enosys]) else (r.1, [.attr (w.stat.ofFile g.2)])
  else (s, [.err .enosys])

/-- An operation that changes the file system. -/
inductive FuseOp where
  | create (parent : UInt64) (name : List UInt8)
  | mknod (parent : UInt64) (name : List UInt8)
  | mkdir (parent : UInt64) (name : List UInt8)
  | write (ino : UInt64) (buf : List UInt8) (size : UInt64) (off : Int64)
  | setattr (ino : UInt64) (stSize : Int64) (toSet : UInt32)

/-- An operation is served. -/
def FuseOp.serve (s : ExtentServer) (w : Ambient) :
    FuseOp → Option (ExtentServer × List FuseReply)
  | .create parent name => some (fuseserverCreate s w parent name)
  | .mknod parent name => some (fuseserverMknod s w parent name)
  | .mkdir parent name => some (fuseserverMkdir s w parent name)
  | .write ino buf size off => fuseserverWrite s w ino buf size off
  | .setattr ino stSize toSet => some (fuseserverSetattr s w ino stSize toSet)

/-- The extents after an operation. Where it ends the process there are
no more operations. -/
def fuseStep (s : ExtentServer) (a : FuseOp × Ambient) : Option ExtentServer :=
  (a.1.serve s a.2).map Prod.fst

/-! ## The handlers that only look -/

/-- `yfs_client::dirinfo`. -/
structure DirInfo where
  atime : UInt64
  mtime : UInt64
  ctime : UInt64
deriving DecidableEq

/-- `yfs_client::getdir`, as `getfile`. -/
def YfsClient.getdir (s : ExtentServer) (inum : UInt64) (din : DirInfo) : Status × DirInfo :=
  let r := s.getattr inum ⟨0, 0, 0, 0⟩
  if r.1 ≠ .ok then (.ioerr, din)
  else (.ok, ⟨r.2.atime.toUInt64, r.2.mtime.toUInt64, r.2.ctime.toUInt64⟩)

/-- The attributes from a `dirinfo`; the inode and the size stay. -/
def Stat.ofDir (st : Stat) (info : DirInfo) : Stat :=
  { st with
    mode := dirMode, nlink := 2, atime := info.atime.toInt64, mtime := info.mtime.toInt64,
    ctime := info.ctime.toInt64 }

/-- What a `dirinfo` holds that nothing was assigned to. -/
def Ambient.dirInfo (w : Ambient) : DirInfo := ⟨w.info.atime, w.info.mtime, w.info.ctime⟩

/-- `getattr` of `fuse.cc`: the status, and what `st` is then. -/
def fuseGetattr (s : ExtentServer) (w : Ambient) (inum : UInt64) : Status × Stat :=
  let st : Stat := ⟨inum, 0, 0, 0, 0, 0, 0⟩
  if YfsClient.isfile inum then
    let g := YfsClient.getfile s inum w.info
    if g.1 ≠ .ok then (g.1, st) else (.ok, st.ofFile g.2)
  else
    let g := YfsClient.getdir s inum w.dirInfo
    if g.1 ≠ .ok then (g.1, st) else (.ok, st.ofDir g.2)

/-- `fuseserver_getattr`. -/
def fuseserverGetattr (s : ExtentServer) (w : Ambient) (ino : UInt64) : List FuseReply :=
  let r := fuseGetattr s w ino
  if r.1 ≠ .ok then [.err .enoent] else [.attr r.2]

/-- `fuseserver_read`. -/
def fuseserverRead (s : ExtentServer) (ino : UInt64) (size : UInt64) (off : Int64) :
    Option (List FuseReply) :=
  (YfsClient.read s ino size off).map fun r => if r.1 ≠ .ok then [.err .enosys] else [.buf r.2]

/-- `fuseserver_lookup`. It goes on after it has replied that there is no
such extent. `finum` is what the variable of `n2i` holds. -/
def fuseserverLookup (s : ExtentServer) (w : Ambient) (finum parent : UInt64) (name : List UInt8) :
    Option (List FuseReply) :=
  (YfsClient.ilookup s finum parent name).map fun inum =>
    if inum = 0 then [.err .enoent]
    else if YfsClient.isfile inum then
      let g := YfsClient.getfile s inum w.info
      (if g.1 ≠ .ok then [.err .enoent] else []) ++ [.entry ⟨inum, w.entry.attr.ofFile g.2⟩]
    else
      let g := YfsClient.getdir s inum w.dirInfo
      (if g.1 ≠ .ok then [.err .enoent] else []) ++ [.entry ⟨inum, w.entry.attr.ofDir g.2⟩]

/-- What `fuse.cc` uses of libfuse to lay out a directory. -/
structure LibFuse where
  /-- `fuse_dirent_size`. -/
  direntSize : ℕ → ℕ
  /-- `fuse_add_dirent`: what it stores, from the name, the inode number
  and the offset. -/
  addDirent : List UInt8 → UInt64 → ℕ → List UInt8

/-- `struct dirbuf`. -/
structure Dirbuf where
  p : List UInt8
  size : ℕ

/-- `dirbuf_add`. -/
def dirbufAdd (lib : LibFuse) (b : Dirbuf) (name : List UInt8) (ino : UInt64) : Dirbuf :=
  let size := b.size + lib.direntSize (cString name).length
  ⟨b.p ++ lib.addDirent (cString name) ino size, size⟩

/-- `reply_buf_limited`. The offset is compared as a `size_t`. -/
def replyBufLimited (b : Dirbuf) (off : Int64) (maxsize : UInt64) : FuseReply :=
  if off.toUInt64.toNat < b.size then
    .buf ((b.p.drop off.toUInt64.toNat).take (min (b.size - off.toUInt64.toNat) maxsize.toNat))
  else .buf []

/-- `fuseserver_readdir`. The pairs are taken from the back; where there
is no directory it returns. -/
def fuseserverReaddir (lib : LibFuse) (s : ExtentServer) (ino : UInt64) (size : UInt64)
    (off : Int64) : Option (List FuseReply) :=
  if ¬ YfsClient.isdir ino then some [.err .enotdir]
  else
    (YfsClient.getDirContent s ino).map fun r =>
      if r.1 ≠ .ok then []
      else
        let b := r.2.reverse.foldl (fun b e => dirbufAdd lib b e.1 e.2) ⟨[], 0⟩
        [replyBufLimited b off size]

/-- `fuseserver_open`. It goes on after it has replied with an error. -/
def fuseserverOpen (ino : UInt64) : List FuseReply :=
  (if YfsClient.isdir ino then [.err .enosys] else []) ++ [.open]

/-- `fuseserver_unlink`. -/
def fuseserverUnlink (_parent : UInt64) (_name : List UInt8) : List FuseReply := [.err .enosys]

/-- `fuseserver_statfs`. -/
def fuseserverStatfs : List FuseReply := [.statfs 255 512]

/-- A request from FUSE. -/
inductive FuseReq where
  | getattr (ino : UInt64)
  | read (ino : UInt64) (size : UInt64) (off : Int64)
  | lookup (parent : UInt64) (name : List UInt8)
  | readdir (ino : UInt64) (size : UInt64) (off : Int64)
  | «open» (ino : UInt64)
  | unlink (parent : UInt64) (name : List UInt8)
  | statfs
  | change (op : FuseOp)

/-- A request is served: the extents then, and the replies. -/
def FuseReq.serve (lib : LibFuse) (s : ExtentServer) (w : Ambient) (finum : UInt64) :
    FuseReq → Option (ExtentServer × List FuseReply)
  | .getattr ino => some (s, fuseserverGetattr s w ino)
  | .read ino size off => (fuseserverRead s ino size off).map fun r => (s, r)
  | .lookup parent name => (fuseserverLookup s w finum parent name).map fun r => (s, r)
  | .readdir ino size off => (fuseserverReaddir lib s ino size off).map fun r => (s, r)
  | .open ino => some (s, fuseserverOpen ino)
  | .unlink parent name => some (s, fuseserverUnlink parent name)
  | .statfs => some (s, fuseserverStatfs)
  | .change op => op.serve s w

end Yfs
