import Yfs.Common.Trace
import Yfs.Files.Contents
import Yfs.Files.Dirents
import Yfs.Files.Listing
import Yfs.Files.Lookup
import Yfs.Files.Transfer

/-!
# The file system as a tree

What `fuse.cc` is for, with the extents left out: a root directory, which
is a list of names with their inums, and files, which are arrays of bytes
(`FileTree`). `FileTree.serve` says what each request does to it and what is
replied. The handlers do the same on extents that hold texts and strings,
as long as the requests stay clear of what the code gets wrong, and
`FileTree.Sound` says which these are, in terms of the tree alone.
`fuse_follows_tree` compares the two over whole runs: the replies are the
same, every file has one name and every name a file.
-/

namespace Yfs

open Common

/-! ## The tree -/

/-- The times of an extent. -/
structure Times where
  atime : UInt32
  mtime : UInt32
  ctime : UInt32

/-- What was put just now. -/
def Times.at (now : UInt32) : Times := ⟨now, now, now⟩

structure TreeFile where
  times : Times
  bytes : ByteFile

/-- What `getfile` finds out about a file. -/
def TreeFile.info (f : TreeFile) : FileInfo :=
  ⟨UInt64.ofNat f.bytes.len, f.times.atime.toUInt64, f.times.mtime.toUInt64,
    f.times.ctime.toUInt64⟩

/-- A directory that holds files. -/
structure FileTree where
  /-- The times of the directory. -/
  times : Times
  entries : List DirEntry
  files : UInt64 → Option TreeFile

namespace FileTree

/-- An empty directory. -/
def new (now : UInt32) : FileTree := ⟨.at now, [], fun _ => none⟩

/-- What `getdir` finds out about the directory. -/
def info (t : FileTree) : DirInfo :=
  ⟨t.times.atime.toUInt64, t.times.mtime.toUInt64, t.times.ctime.toUInt64⟩

/-- A file gets this content, with these times. -/
def setFile (t : FileTree) (ino : UInt64) (f : TreeFile) : FileTree :=
  { t with files := Function.update t.files ino (some f) }

/-- The file of this name. -/
def lookup (t : FileTree) (name : List UInt8) : Option (UInt64 × TreeFile) :=
  (t.entries.find? fun e => e.name = name).bind fun e => (t.files e.inum).map fun f => (e.inum, f)

/-- A new file of this name. -/
def make (t : FileTree) (w : Ambient) (name : List UInt8) : FileTree :=
  { times := .at w.now'
    entries := t.entries ++ [⟨name, fileID w⟩]
    files := Function.update t.files (fileID w) (some ⟨.at w.now, .empty⟩) }

/-- What is replied about it. -/
def made (w : Ambient) : EntryParam :=
  ⟨fileID w, { w.entry.attr with ino := fileID w }.ofFile (TreeFile.info ⟨.at w.now, .empty⟩)⟩

/-- A file gets another size; the one that it has only counts as a look
at it. -/
def resize (f : TreeFile) (size : ℕ) (now : UInt32) : TreeFile :=
  if size = f.bytes.len then { f with times := { f.times with atime := now } }
  else ⟨.at now, f.bytes.resize size⟩

/-- What an operation does, and what is replied. There is one directory,
and none can be made. -/
def change (t : FileTree) (w : Ambient) : FuseOp → FileTree × List FuseReply
  | .create parent name =>
    if parent = 1 then (t.make w name, [.create (made w)]) else (t, [.err .enoent])
  | .mknod parent name =>
    if parent = 1 then (t.make w name, [.entry (made w)]) else (t, [.err .enoent])
  | .mkdir _ _ => (t, [.err .enosys])
  | .write ino buf size off =>
    match t.files ino with
    | none => (t, [.err .enosys])
    | some f =>
      (t.setFile ino ⟨.at w.now, f.bytes.write off.toUInt64.toNat (buf.take size.toNat)⟩,
        [.write size])
  | .setattr ino stSize toSet =>
    if fuseSetAttrSize &&& toSet ≠ 0 then
      match t.files ino with
      | none => (t, [.err .enosys])
      | some f =>
        let f := resize f stSize.toUInt64.toNat w.now
        (t.setFile ino f, [.attr (w.stat.ofFile f.info)])
    else (t, [.err .enosys])

/-- What a request does, and what is replied. -/
def serve (lib : LibFuse) (t : FileTree) (w : Ambient) : FuseReq → FileTree × List FuseReply
  | .getattr ino =>
    if ino = 1 then (t, [.attr (Stat.ofDir ⟨1, 0, 0, 0, 0, 0, 0⟩ t.info)])
    else
      match t.files ino with
      | none => (t, [.err .enoent])
      | some f => (t, [.attr (Stat.ofFile ⟨ino, 0, 0, 0, 0, 0, 0⟩ f.info)])
  | .read ino size off =>
    match t.files ino with
    | none => (t, [.err .enosys])
    | some f =>
      if off < 0 then (t, [.err .enosys])
      else (t, [.buf (f.bytes.read size.toNat off.toUInt64.toNat)])
  | .lookup parent name =>
    if parent = 1 then
      match t.lookup name with
      | none => (t, [.err .enoent])
      | some (inum, f) => (t, [.entry ⟨inum, w.entry.attr.ofFile f.info⟩])
    else (t, [.err .enoent])
  | .readdir ino size off =>
    if ino = 1 then
      let b := t.entries.reverse.foldl (fun b e => dirbufAdd lib b e.name e.inum) ⟨[], 0⟩
      (t, [replyBufLimited b off size])
    else (t, [.err .enotdir])
  | .open _ => (t, [.open])
  | .unlink _ _ => (t, [.err .enosys])
  | .statfs => (t, [.statfs 255 512])
  | .change op => t.change w op

/-! ## What the code gets right -/

/-- The new name is fit for a text and not taken, the inum drawn is not
taken, and the text of the directory does not become too long. -/
structure CanMake (t : FileTree) (w : Ambient) (name : List UInt8) : Prop where
  ne_nil : name ≠ []
  plain : colon ∉ name
  newName : ∀ e ∈ t.entries, e.name ≠ name
  newFile : t.files (fileID w) = none
  fits : (dirString (t.entries ++ [⟨name, fileID w⟩])).length ≤ maxextent

/-- The operation is one that the handlers get right. -/
def Allows (t : FileTree) (w : Ambient) : FuseOp → Prop
  | .create parent name => t.files parent = none ∧ (parent = 1 → t.CanMake w name)
  | .mknod parent name => t.files parent = none ∧ (parent = 1 → t.CanMake w name)
  | .mkdir parent _ => t.files parent = none ∧ parent ≠ 1
  | .write ino buf size off =>
    ino ≠ 1 ∧ ∀ f, t.files ino = some f →
      0 ≤ off ∧ off.toUInt64.toNat ≤ f.bytes.len ∧
      off.toUInt64.toNat + size.toNat ≤ maxextent ∧
      size.toNat ≤ buf.length ∧ 0 ∉ buf.take size.toNat
  | .setattr ino stSize toSet =>
    ino ≠ 1 ∧ (fuseSetAttrSize &&& toSet ≠ 0 → 0 ≤ stSize ∧ stSize.toUInt64.toNat ≤ maxextent)

/-- The request is one that the handlers get right. -/
def Sound (t : FileTree) (w : Ambient) : FuseReq → Prop
  | .getattr _ => True
  | .read ino _ _ => ino ≠ 1
  | .lookup parent name =>
    t.files parent = none ∧ name ≠ [] ∧ colon ∉ name ∧
      (parent = 1 → LeadsTo name (inumOf t.entries name) t.entries)
  | .readdir ino _ _ => (ino = 1 ∧ LastIdFits t.entries) ∨ YfsClient.isfile ino = true
  | .open ino => YfsClient.isfile ino = true
  | .unlink _ _ => True
  | .statfs => True
  | .change op => t.Allows w op

/-- What holds of every tree that comes about: the names are told apart,
and so are the inums; those are the files, each within the limits. -/
structure Proper (t : FileTree) : Prop where
  names : (t.entries.map DirEntry.name).Nodup
  inums : (t.entries.map DirEntry.inum).Nodup
  named : ∀ id, (t.files id).isSome ↔ id ∈ t.entries.map DirEntry.inum
  isfile : ∀ e ∈ t.entries, YfsClient.isfile e.inum = true
  plain : ∀ e ∈ t.entries, e.name ≠ [] ∧ colon ∉ e.name
  small : ∀ id f, t.files id = some f → f.bytes.len ≤ maxextent
  fits : (dirString t.entries).length ≤ maxextent

end FileTree

/-! ## The extents of a tree -/

/-- The extent of a file. -/
def TreeFile.extent (f : TreeFile) : ExtentInfo :=
  ⟨⟨f.times.atime, f.times.mtime, f.times.ctime, UInt32.ofNat f.bytes.len⟩, f.bytes.content⟩

/-- The extent of the directory. -/
def FileTree.extent (t : FileTree) : ExtentInfo :=
  ⟨⟨t.times.atime, t.times.mtime, t.times.ctime, UInt32.ofNat (dirString t.entries).length⟩,
    dirString t.entries⟩

/-- The server holds the tree, and nothing else. -/
structure Mirrors (t : FileTree) (s : ExtentServer) : Prop where
  root : s.extents 1 = some t.extent
  rest : ∀ id, id ≠ 1 → s.extents id = (t.files id).map TreeFile.extent

section

variable {t : FileTree} {s : ExtentServer} {w : Ambient} {id : UInt64} {f : TreeFile}
  {lib : LibFuse} {name : List UInt8}

/-! ## What is found there -/

theorem FileTree.Proper.files_isfile (h : t.Proper) (hf : t.files id = some f) :
    YfsClient.isfile id = true := by
  have hmem := (h.named id).1 (by rw [hf]; rfl)
  obtain ⟨e, he, rfl⟩ := List.mem_map.1 hmem
  exact h.isfile e he

/-- The directory is no file. -/
theorem FileTree.Proper.files_one (h : t.Proper) : t.files 1 = none := by
  cases hf : t.files 1 with
  | none => rfl
  | some f => exact absurd (h.files_isfile hf) (by decide)

theorem FileTree.Proper.ne_one (h : t.Proper) (hf : t.files id = some f) : id ≠ 1 := by
  rintro rfl
  rw [h.files_one] at hf
  exact Option.some_ne_none f hf.symm

theorem Mirrors.get_root (h : Mirrors t s) : s.get 1 = (.ok, dirString t.entries) := by
  rw [ExtentServer.get, h.root]
  rfl

theorem Mirrors.extents_file (h : Mirrors t s) (hid : id ≠ 1) (hf : t.files id = some f) :
    s.extents id = some f.extent := by
  rw [h.rest id hid, hf]
  rfl

theorem Mirrors.extents_none (h : Mirrors t s) (hid : id ≠ 1) (hf : t.files id = none) :
    s.extents id = none := by
  rw [h.rest id hid, hf]
  rfl

theorem Mirrors.get_file (h : Mirrors t s) (hid : id ≠ 1) (hf : t.files id = some f) :
    s.get id = (.ok, f.bytes.content) := by
  rw [ExtentServer.get, h.extents_file hid hf]
  rfl

theorem Mirrors.get_none (h : Mirrors t s) (hid : id ≠ 1) (hf : t.files id = none) :
    s.get id = (.noent, []) := by
  rw [ExtentServer.get, h.extents_none hid hf]

theorem toUInt64_ofNat {n : ℕ} (h : n ≤ maxextent) :
    (UInt32.ofNat n).toUInt64 = UInt64.ofNat n := by
  have hmax : maxextent < 2 ^ 32 := by decide
  refine UInt64.toNat_inj.1 ?_
  rw [UInt32.toNat_toUInt64, UInt32.toNat_ofNat_of_lt' (by change n < 2 ^ 32; omega),
    UInt64.toNat_ofNat_of_lt' (by change n < 2 ^ 64; omega)]

/-- The size of a file is its length. -/
theorem getfile_of_extent (he : s.extents id = some f.extent) (hsmall : f.bytes.len ≤ maxextent)
    (fin : FileInfo) : YfsClient.getfile s id fin = (.ok, f.info) := by
  have hsize : f.extent.eAttr.size.toUInt64 = UInt64.ofNat f.bytes.len := toUInt64_ofNat hsmall
  unfold YfsClient.getfile ExtentServer.getattr
  rw [he]
  dsimp only
  rw [if_neg (not_not.2 rfl), hsize]
  rfl

theorem getfile_of_none (he : s.extents id = none) (fin : FileInfo) :
    YfsClient.getfile s id fin = (.ioerr, fin) := by
  unfold YfsClient.getfile ExtentServer.getattr
  rw [he]
  rfl

/-- A file is replaced. -/
theorem Mirrors.setFile (h : Mirrors t s) (hid : id ≠ 1) (f : TreeFile) :
    Mirrors (t.setFile id f) ⟨Function.update s.extents id (some f.extent)⟩ where
  root := (Function.update_of_ne hid.symm ..).trans h.root
  rest id' hid' := by
    show Function.update s.extents id (some f.extent) id' =
      (Function.update t.files id (some f) id').map TreeFile.extent
    by_cases heq : id' = id
    · rw [heq, Function.update_self, Function.update_self, Option.map_some]
    · rw [Function.update_of_ne heq, Function.update_of_ne heq]
      exact h.rest id' hid'

theorem FileTree.Proper.setFile {f' : TreeFile} (h : t.Proper) (hf : t.files id = some f)
    (hsmall : f'.bytes.len ≤ maxextent) : (t.setFile id f').Proper where
  names := h.names
  inums := h.inums
  named id' := by
    show (Function.update t.files id (some f') id').isSome ↔ id' ∈ t.entries.map DirEntry.inum
    by_cases heq : id' = id
    · rw [heq, Function.update_self, ← h.named id, hf]
      rfl
    · rw [Function.update_of_ne heq]
      exact h.named id'
  isfile := h.isfile
  plain := h.plain
  small id' f'' hf'' := by
    change Function.update t.files id (some f') id' = some f'' at hf''
    by_cases heq : id' = id
    · rw [heq, Function.update_self, Option.some.injEq] at hf''
      rw [← hf'']
      exact hsmall
    · rw [Function.update_of_ne heq] at hf''
      exact h.small id' f'' hf''
  fits := h.fits

/-! ## The handlers that only look -/

/-- `getattr`. -/
theorem Mirrors.getattr (h : Mirrors t s) (hp : t.Proper) (ino : UInt64) :
    fuseserverGetattr s w ino = (t.serve lib w (.getattr ino)).2 := by
  unfold fuseserverGetattr fuseGetattr FileTree.serve
  dsimp only
  by_cases hone : ino = 1
  · subst hone
    have hdir : YfsClient.getdir s 1 w.dirInfo = (.ok, t.info) := by
      unfold YfsClient.getdir ExtentServer.getattr
      rw [h.root]
      rfl
    have hfile : ¬ YfsClient.isfile 1 = true := by decide
    rw [if_neg hfile, hdir, if_pos rfl]
    rfl
  rw [if_neg hone]
  cases hf : t.files ino with
  | none =>
    have hnone := h.extents_none hone hf
    have hdir : YfsClient.getdir s ino w.dirInfo = (.ioerr, w.dirInfo) := by
      unfold YfsClient.getdir ExtentServer.getattr
      rw [hnone]
      rfl
    rw [getfile_of_none hnone, hdir]
    split
    · rfl
    · rfl
  | some f =>
    rw [if_pos (hp.files_isfile hf), getfile_of_extent (h.extents_file hone hf) (hp.small ino f hf)]
    rfl

/-- `read`. -/
theorem Mirrors.read (h : Mirrors t s) {ino : UInt64} (hone : ino ≠ 1) (size : UInt64)
    (off : Int64) :
    fuseserverRead s ino size off = some (t.serve lib w (.read ino size off)).2 := by
  unfold fuseserverRead FileTree.serve
  dsimp only
  cases hf : t.files ino with
  | none =>
    unfold YfsClient.read
    rw [h.get_none hone hf]
    rfl
  | some f =>
    dsimp only
    by_cases hoff : off < 0
    · unfold YfsClient.read
      rw [h.get_file hone hf, if_pos hoff]
      dsimp only
      rw [if_neg (not_not.2 rfl), if_pos hoff]
      rfl
    · rw [YfsClient.read_eq (h.get_file hone hf) (Int64.not_lt.1 hoff), if_neg hoff,
        ByteFile.read_eq]
      rfl

/-- The name leads to the file. -/
theorem FileTree.Proper.lookup_eq (hp : t.Proper) (name : List UInt8) :
    (inumOf t.entries name = 0 ∧ t.lookup name = none) ∨
      ∃ f, t.files (inumOf t.entries name) = some f ∧
        t.lookup name = some (inumOf t.entries name, f) := by
  unfold inumOf FileTree.lookup
  cases he : t.entries.find? fun e => e.name = name with
  | none => exact .inl ⟨rfl, rfl⟩
  | some e =>
    have hmem := List.mem_of_find?_eq_some he
    obtain ⟨f, hf⟩ := Option.isSome_iff_exists.1 ((hp.named e.inum).2 (List.mem_map_of_mem hmem))
    exact .inr ⟨f, hf, by rw [Option.bind_some, hf, Option.map_some]⟩

/-- `lookup`. -/
theorem Mirrors.lookup (h : Mirrors t s) (hp : t.Proper) {parent : UInt64}
    (hsound : t.Sound w (.lookup parent name)) (finum : UInt64) :
    fuseserverLookup s w finum parent name =
      some (t.serve lib w (.lookup parent name)).2 := by
  obtain ⟨hparent, hne, hcolon, hleads⟩ := hsound
  unfold fuseserverLookup FileTree.serve
  dsimp only
  by_cases hone : parent = 1
  · subst hone
    have hanswer : YfsClient.ilookup s finum 1 name = some (inumOf t.entries name) := by
      rw [ilookup_eq h.get_root (fun e he => (hp.plain e he).2) hne hcolon finum,
        (lookupAnswer_iff inumOf_of_after_none).2 (hleads rfl)]
    rw [hanswer, Option.map_some, if_pos rfl]
    rcases hp.lookup_eq name with ⟨hzero, hlook⟩ | ⟨f, hf, hlook⟩
    · rw [hlook, if_pos hzero]
    · have hid := hp.ne_one hf
      have hfile := hp.files_isfile hf
      have hzero : inumOf t.entries name ≠ 0 := by
        intro hz
        rw [hz] at hfile
        exact absurd hfile (by decide)
      rw [hlook, if_neg hzero, if_pos hfile,
        getfile_of_extent (h.extents_file hid hf) (hp.small _ f hf)]
      rfl
  · have hanswer : YfsClient.ilookup s finum parent name = some 0 := by
      unfold YfsClient.ilookup
      rw [h.get_none hone hparent]
      rfl
    rw [hanswer, if_neg hone]
    rfl

/-- `readdir`. -/
theorem Mirrors.readdir (h : Mirrors t s) (hp : t.Proper) {ino size : UInt64} {off : Int64}
    (hsound : t.Sound w (.readdir ino size off)) :
    fuseserverReaddir lib s ino size off = some (t.serve lib w (.readdir ino size off)).2 := by
  unfold fuseserverReaddir FileTree.serve
  dsimp only
  rcases hsound with ⟨rfl, hfits⟩ | hfile
  · have hlist : YfsClient.getDirContent s 1 = some (.ok, t.entries.map DirEntry.pair) := by
      rcases List.eq_nil_or_concat' t.entries with hnil | ⟨es, e, hes⟩
      · have hget := h.get_root
        rw [hnil] at hget ⊢
        unfold YfsClient.getDirContent
        rw [hget]
        rfl
      · have hget := h.get_root
        have hlen := hp.fits
        have hplain := hp.plain
        rw [hes] at hget hlen hplain hfits ⊢
        rw [getDirContent_concat hget hlen fun d hd => (hplain d hd).2,
          List.take_of_length_le (lastIdFits_concat.1 hfits), stringToid_filename, List.map_append]
        rfl
    rw [if_neg (by decide), hlist, if_pos rfl, Option.map_some]
    dsimp only
    rw [if_neg (not_not.2 rfl), ← List.map_reverse, List.foldl_map]
    rfl
  · have hone : ino ≠ 1 := by
      rintro rfl
      exact absurd hfile (by decide)
    have hdir : ¬ YfsClient.isdir ino = true := by
      unfold YfsClient.isdir
      rw [hfile]
      decide
    rw [if_pos hdir, if_neg hone]

/-! ## The handlers that change something -/

/-- The extents after a file was made. -/
theorem Mirrors.make (h : Mirrors t s) (hmake : t.CanMake w name) :
    ∃ s', YfsClient.create s 1 (fileID w) name w.now w.now' = (s', .ok) ∧
      Mirrors (t.make w name) s' := by
  have happend : appended (dirString t.entries) name (fileID w) =
      dirString (t.entries ++ [⟨name, fileID w⟩]) := appended_dirString t.entries ⟨name, fileID w⟩
  have hput : Yfs.made s (fileID w) w.now =
      ⟨Function.update s.extents (fileID w) (some (TreeFile.extent ⟨.at w.now, .empty⟩))⟩ := by
    unfold Yfs.made
    rw [if_pos (isfile_fileID w), ExtentServer.put,
      if_neg (show ¬ ([] : List UInt8).length > maxextent from Nat.not_lt_zero _)]
    rfl
  refine ⟨⟨Function.update (Function.update s.extents (fileID w)
    (some (TreeFile.extent ⟨.at w.now, .empty⟩))) 1 (some (t.make w name).extent)⟩, ?_, ?_⟩
  · rw [create_eq h.get_root, happend, if_pos hmake.fits, hput, ExtentServer.put,
      if_neg (Nat.not_lt.2 hmake.fits)]
    rfl
  · refine ⟨?_, fun id hne => ?_⟩
    · dsimp only
      rw [Function.update_self]
    show Function.update (Function.update s.extents _ _) 1 _ id =
      (Function.update t.files (fileID w) _ id).map TreeFile.extent
    rw [Function.update_of_ne hne]
    by_cases heq : id = fileID w
    · rw [heq, Function.update_self, Function.update_self, Option.map_some]
    · rw [Function.update_of_ne heq, Function.update_of_ne heq]
      exact h.rest id hne

theorem FileTree.Proper.make (h : t.Proper) (hmake : t.CanMake w name) :
    (t.make w name).Proper where
  names := by
    show ((t.entries ++ [(⟨name, fileID w⟩ : DirEntry)]).map DirEntry.name).Nodup
    rw [List.map_append, List.nodup_append]
    refine ⟨h.names, List.pairwise_singleton _ _, fun a ha b hb => ?_⟩
    obtain ⟨e, he, rfl⟩ := List.mem_map.1 ha
    rw [List.mem_singleton.1 hb]
    exact hmake.newName e he
  inums := by
    show ((t.entries ++ [(⟨name, fileID w⟩ : DirEntry)]).map DirEntry.inum).Nodup
    rw [List.map_append, List.nodup_append]
    refine ⟨h.inums, List.pairwise_singleton _ _, fun a ha b hb => ?_⟩
    rintro rfl
    have hsome := (h.named a).2 ha
    rw [List.mem_singleton.1 hb] at hsome
    change (t.files (fileID w)).isSome at hsome
    rw [hmake.newFile] at hsome
    exact Bool.false_ne_true hsome
  named id := by
    show (Function.update t.files (fileID w) _ id).isSome ↔
      id ∈ (t.entries ++ [(⟨name, fileID w⟩ : DirEntry)]).map DirEntry.inum
    rw [List.map_append, List.mem_append, List.map_singleton, List.mem_singleton]
    by_cases heq : id = fileID w
    · rw [heq, Function.update_self]
      exact iff_of_true rfl (.inr rfl)
    · rw [Function.update_of_ne heq, h.named id]
      exact (or_iff_left heq).symm
  isfile e he := by
    rcases List.mem_append.1 he with he | he
    · exact h.isfile e he
    · rw [List.mem_singleton.1 he]
      exact isfile_fileID w
  plain e he := by
    rcases List.mem_append.1 he with he | he
    · exact h.plain e he
    · rw [List.mem_singleton.1 he]
      exact ⟨hmake.ne_nil, hmake.plain⟩
  small id f hf := by
    change Function.update t.files (fileID w) _ id = some f at hf
    by_cases heq : id = fileID w
    · rw [heq, Function.update_self, Option.some.injEq] at hf
      rw [← hf]
      exact Nat.zero_le _
    · rw [Function.update_of_ne heq] at hf
      exact h.small id f hf
  fits := hmake.fits

/-- `fuseserver_createhelper`, in the directory. -/
theorem Mirrors.createhelper (h : Mirrors t s) (hp : t.Proper) (hmake : t.CanMake w name) :
    ∃ s', fuseserverCreatehelper s w 1 name = (s', .ok, FileTree.made w) ∧
      Mirrors (t.make w name) s' := by
  obtain ⟨s', hcreate, hs'⟩ := h.make hmake
  have hnew : (t.make w name).files (fileID w) = some ⟨.at w.now, .empty⟩ :=
    Function.update_self ..
  have hext := hs'.extents_file ((hp.make hmake).ne_one hnew) hnew
  refine ⟨s', ?_, hs'⟩
  unfold fuseserverCreatehelper
  rw [hcreate]
  dsimp only
  rw [if_neg (not_not.2 rfl), getfile_of_extent hext (Nat.zero_le _)]
  rfl

/-- What `put` leaves of a file. -/
theorem put_eq (s : ExtentServer) {content : List UInt8} (b : ByteFile) (hb : b.content = content)
    (hlen : content.length ≤ maxextent) (now : UInt32) :
    (s.put id content now).1 =
      ⟨Function.update s.extents id (some (TreeFile.extent ⟨.at now, b⟩))⟩ := by
  have hlen' : content.length = b.len := by rw [← hb, ByteFile.length_content]
  rw [ExtentServer.put, if_neg (Nat.not_lt.2 hlen), TreeFile.extent, hb, hlen']
  rfl

/-- A handler did what the tree says, and the extents are those of the
tree again. -/
def Follows (r : FileTree × List FuseReply) (r' : Option (ExtentServer × List FuseReply)) : Prop :=
  ∃ s', r' = some (s', r.2) ∧ Mirrors r.1 s' ∧ r.1.Proper

/-- An offset within the limit, as an `int` and as a `size_t`. -/
theorem toInt32_small {off : Int64} (hoff : 0 ≤ off) (h : off.toUInt64.toNat ≤ maxextent) :
    off.toInt32.toInt = off.toUInt64.toNat ∧ toSize off.toInt32 = off.toUInt64.toNat := by
  have hmax : maxextent < 2 ^ 30 := by decide
  have hnat := toNat_toUInt64 hoff
  have hint : off.toInt32.toInt = off.toInt := by
    rw [Int64.toInt_toInt32, Int.bmod_eq_of_le (by omega) (by omega)]
  have hpos : 0 ≤ off.toInt32 := by
    rw [Int32.le_iff_toInt_le, hint]
    exact Int64.le_iff_toInt_le.1 hoff
  rw [toSize_of_nonneg hpos, hint]
  omega

/-- What `write` puts back, where it starts in the file or at its end and
all of its bytes arrive. -/
theorem putsBack_inFile {b : ByteFile} (ino : UInt64) {size : UInt64} {buf : List UInt8}
    {off : Int64} (hoff : 0 ≤ off) (hle : off.toUInt64.toNat ≤ b.len) (hlen : b.len ≤ maxextent)
    (hsize : size.toNat ≤ maxextent) (hbuf : size.toNat ≤ buf.length)
    (hzero : 0 ∉ buf.take size.toNat) :
    (ClientOp.write ino (cString buf) size.toUInt32.toInt32 off.toInt32).putsBack b.content =
      some (b.write off.toUInt64.toNat (buf.take size.toNat)).content := by
  have hmax : maxextent < 2 ^ 30 := by decide
  have hlen' := ByteFile.length_content b
  obtain ⟨hint, hnat⟩ := toInt32_small hoff (hle.trans hlen)
  rw [ClientOp.putsBack, stringSubstr_zero, Option.bind_some, toSize_toInt32 (by omega),
    (take_cString_eq_iff buf size.toNat).2 hzero, ByteFile.content_write b _ hle,
    List.length_take_of_le hbuf, hnat]
  by_cases hge : off.toInt32 ≥ Int32.ofNat b.content.length
  · rw [if_pos hge]
    rw [ge_iff_le, Int32.le_iff_toInt_le, hint, Int32.toInt_ofNat_of_lt (by omega)] at hge
    have htake : b.content.take off.toUInt64.toNat = b.content :=
      List.take_of_length_le (by omega)
    rw [htake, List.drop_of_length_le (by omega), List.append_nil]
  · rw [if_neg hge, stringReplace, if_neg (by omega)]

/-- `write`. -/
theorem Mirrors.write (h : Mirrors t s) (hp : t.Proper) {ino size : UInt64} {buf : List UInt8}
    {off : Int64} (hallows : t.Allows w (.write ino buf size off)) :
    Follows (t.change w (.write ino buf size off)) (fuseserverWrite s w ino buf size off) := by
  obtain ⟨hone, hrange⟩ := hallows
  cases hf : t.files ino with
  | none =>
    have hmissing : s.contents ino = none := by
      rw [ExtentServer.contents, h.extents_none hone hf]
      rfl
    rw [FileTree.change, hf]
    exact ⟨s, fuseserverWrite_missing hmissing, h, hp⟩
  | some f =>
    obtain ⟨hoff, hle, hfit, hbuf, hzero⟩ := hrange f hf
    have hsmall := hp.small ino f hf
    have hlen : (buf.take size.toNat).length = size.toNat := List.length_take_of_le hbuf
    have hnew : (f.bytes.write off.toUInt64.toNat (buf.take size.toNat)).len ≤ maxextent := by
      show max f.bytes.len (off.toUInt64.toNat + (buf.take size.toNat).length) ≤ maxextent
      omega
    have hcontent :
        (f.bytes.write off.toUInt64.toNat (buf.take size.toNat)).content.length ≤ maxextent := by
      rw [ByteFile.length_content]
      exact hnew
    have hback := putsBack_inFile ino hoff hle hsmall (by omega) hbuf hzero
    rw [FileTree.change, hf]
    refine ⟨_, ?_, h.setFile hone _, hp.setFile hf hnew⟩
    rw [fuseserverWrite_eq (h.get_file hone hf), hback, Option.map_some, if_pos hcontent,
      put_eq s _ rfl hcontent]

/-- What `setattr` of the client leaves of a file. -/
theorem setattr_eq {size : UInt64} (he : s.extents id = some f.extent)
    (hsmall : f.bytes.len ≤ maxextent) (hsize : size.toNat ≤ maxextent) (a : Attr) (now : UInt32) :
    YfsClient.setattr s id size a now =
      (⟨Function.update s.extents id (some (FileTree.resize f size.toNat now).extent)⟩, .ok) := by
  have hmax : maxextent < 2 ^ 32 := by decide
  have hnat : size.toUInt32.toNat = size.toNat := by
    rw [UInt64.toNat_toUInt32]
    omega
  have hlen : (UInt32.ofNat f.bytes.len).toNat = f.bytes.len :=
    UInt32.toNat_ofNat_of_lt' (by change f.bytes.len < 2 ^ 32; omega)
  have hsame : size.toUInt32 = f.extent.eAttr.size ↔ size.toNat = f.bytes.len := by
    rw [← UInt32.toNat_inj, hnat]
    exact Eq.congr_right hlen
  unfold YfsClient.setattr ExtentServer.setattr
  rw [he]
  dsimp only
  by_cases heq : size.toNat = f.bytes.len
  · rw [if_pos (hsame.2 heq), FileTree.resize, if_pos heq]
    rfl
  · have hresize : TreeFile.extent ⟨.at now, f.bytes.resize size.toNat⟩ =
        ⟨⟨now, now, now, size.toUInt32⟩, stringResize f.extent.content size.toUInt32.toNat⟩ := by
      have hofNat : UInt32.ofNat size.toNat = size.toUInt32 := by
        rw [← hnat, UInt32.ofNat_toNat]
      unfold TreeFile.extent
      rw [ByteFile.content_resize, hnat]
      show (⟨⟨now, now, now, UInt32.ofNat size.toNat⟩, _⟩ : ExtentInfo) = _
      rw [hofNat]
    rw [if_neg (fun h => heq (hsame.1 h)), FileTree.resize, if_neg heq, hresize]
    rfl

/-- `setattr`. -/
theorem Mirrors.setattr (h : Mirrors t s) (hp : t.Proper) {ino : UInt64} {stSize : Int64}
    {toSet : UInt32} (hallows : t.Allows w (.setattr ino stSize toSet)) :
    Follows (t.change w (.setattr ino stSize toSet))
      (some (fuseserverSetattr s w ino stSize toSet)) := by
  obtain ⟨hone, hrange⟩ := hallows
  unfold fuseserverSetattr
  rw [FileTree.change]
  by_cases hset : fuseSetAttrSize &&& toSet ≠ 0
  · rw [if_pos hset, if_pos hset]
    obtain ⟨hpos, hle⟩ := hrange hset
    cases hf : t.files ino with
    | none =>
      refine ⟨s, ?_, h, hp⟩
      dsimp only
      unfold YfsClient.setattr ExtentServer.setattr
      rw [h.extents_none hone hf]
      rfl
    | some f =>
      have hsmall := hp.small ino f hf
      have hnew : (FileTree.resize f stSize.toUInt64.toNat w.now).bytes.len ≤ maxextent := by
        unfold FileTree.resize
        split
        · exact hsmall
        · exact hle
      have hserver := setattr_eq (h.extents_file hone hf) hsmall hle w.attr w.now
      refine ⟨_, ?_, h.setFile hone _, hp.setFile hf hnew⟩
      dsimp only
      rw [hserver]
      dsimp only
      rw [if_neg (not_not.2 rfl), getfile_of_extent (Function.update_self ..) hnew]
      rfl
  · rw [if_neg hset, if_neg hset]
    exact ⟨s, rfl, h, hp⟩

/-- What is no directory has no entries to add to. -/
theorem Mirrors.not_made (h : Mirrors t s) {parent : UInt64} (hone : parent ≠ 1)
    (hparent : t.files parent = none) :
    fuseserverCreatehelper s w parent name = (s, .ioerr, w.entry) ∧
      fuseserverMkdir s w parent name = (s, [.err .enosys]) := by
  have hget := h.get_none hone hparent
  constructor
  · unfold fuseserverCreatehelper YfsClient.create
    rw [hget]
    rfl
  · unfold fuseserverMkdir YfsClient.create
    rw [hget]
    rfl

/-- **An operation.** -/
theorem Mirrors.change (h : Mirrors t s) (hp : t.Proper) {op : FuseOp}
    (hallows : t.Allows w op) : Follows (t.change w op) (op.serve s w) := by
  cases op with
  | create parent name =>
    obtain ⟨hparent, hmake⟩ := hallows
    rw [FileTree.change, FuseOp.serve, fuseserverCreate]
    by_cases hone : parent = 1
    · subst hone
      obtain ⟨s', hhelper, hs'⟩ := h.createhelper hp (hmake rfl)
      rw [hhelper, if_pos rfl]
      exact ⟨s', rfl, hs', hp.make (hmake rfl)⟩
    · rw [(h.not_made hone hparent).1, if_neg hone]
      exact ⟨s, rfl, h, hp⟩
  | mknod parent name =>
    obtain ⟨hparent, hmake⟩ := hallows
    rw [FileTree.change, FuseOp.serve, fuseserverMknod]
    by_cases hone : parent = 1
    · subst hone
      obtain ⟨s', hhelper, hs'⟩ := h.createhelper hp (hmake rfl)
      rw [hhelper, if_pos rfl]
      exact ⟨s', rfl, hs', hp.make (hmake rfl)⟩
    · rw [(h.not_made hone hparent).1, if_neg hone]
      exact ⟨s, rfl, h, hp⟩
  | mkdir parent name =>
    obtain ⟨hparent, hone⟩ := hallows
    rw [FileTree.change, FuseOp.serve, (h.not_made hone hparent).2]
    exact ⟨s, rfl, h, hp⟩
  | write ino buf size off => exact h.write hp hallows
  | setattr ino stSize toSet => exact h.setattr hp hallows

/-- A request that only looks leaves the tree alone. -/
theorem FileTree.serve_fst (lib : LibFuse) (t : FileTree) (w : Ambient) {r : FuseReq}
    (hr : ∀ op, r ≠ .change op) : (t.serve lib w r).1 = t := by
  cases r with
  | getattr ino =>
    unfold FileTree.serve
    dsimp only
    split
    · rfl
    · split
      · rfl
      · rfl
  | read ino size off =>
    unfold FileTree.serve
    dsimp only
    split
    · rfl
    · split
      · rfl
      · rfl
  | lookup parent name =>
    unfold FileTree.serve
    dsimp only
    split
    · split
      · rfl
      · rfl
    · rfl
  | readdir ino size off =>
    unfold FileTree.serve
    dsimp only
    split
    · rfl
    · rfl
  | «open» ino => rfl
  | unlink parent name => rfl
  | statfs => rfl
  | change op => exact absurd rfl (hr op)

/-- **A request.** -/
theorem Mirrors.serve (h : Mirrors t s) (hp : t.Proper) {r : FuseReq} (hsound : t.Sound w r)
    (finum : UInt64) : Follows (t.serve lib w r) (r.serve lib s w finum) := by
  by_cases hchange : ∃ op, r = .change op
  · obtain ⟨op, rfl⟩ := hchange
    exact h.change hp hsound
  · have hr : ∀ op, r ≠ .change op := fun op heq => hchange ⟨op, heq⟩
    refine ⟨s, ?_, by rw [FileTree.serve_fst lib t w hr]; exact h,
      by rw [FileTree.serve_fst lib t w hr]; exact hp⟩
    cases r with
    | getattr ino => exact congrArg some (congrArg (Prod.mk s) (h.getattr hp ino))
    | read ino size off =>
      rw [FuseReq.serve, h.read hsound, Option.map_some]
    | lookup parent name =>
      rw [FuseReq.serve, h.lookup hp hsound, Option.map_some]
    | readdir ino size off =>
      rw [FuseReq.serve, h.readdir hp hsound, Option.map_some]
    | «open» ino =>
      have hdir : YfsClient.isdir ino = false := by
        unfold YfsClient.isdir
        rw [show YfsClient.isfile ino = true from hsound]
        rfl
      rw [FuseReq.serve, fuseserverOpen, hdir]
      rfl
    | unlink parent name => rfl
    | statfs => rfl
    | change op => exact absurd rfl (hr op)

theorem mirrors_new (now : UInt32) : Mirrors (.new now) (.new now) where
  root := rfl
  rest _ hid := if_neg hid

theorem FileTree.proper_new (now : UInt32) : (FileTree.new now).Proper where
  names := List.nodup_nil
  inums := List.nodup_nil
  named _ := iff_of_false Bool.false_ne_true List.not_mem_nil
  isfile _ he := absurd he List.not_mem_nil
  plain _ he := absurd he List.not_mem_nil
  small _ f hf := absurd hf.symm (Option.some_ne_none f)
  fits := Nat.zero_le _

end

/-- A request, with what it takes from its surroundings. -/
structure Asked where
  req : FuseReq
  ambient : Ambient
  /-- What the variable of `n2i` holds. -/
  finum : UInt64

/-- What the handler does. -/
def Asked.serve (lib : LibFuse) (s : ExtentServer) (a : Asked) :
    Option (ExtentServer × List FuseReply) :=
  a.req.serve lib s a.ambient a.finum

/-- What happens to the tree. -/
def Asked.onTree (lib : LibFuse) (t : FileTree) (a : Asked) : FileTree × List FuseReply :=
  t.serve lib a.ambient a.req

/-- The request is one that the handlers get right. -/
def Asked.Sound (t : FileTree) (a : Asked) : Prop := t.Sound a.ambient a.req

/-- **The file system is a tree.** For every run of FUSE requests from the
start that stays clear of what the code gets wrong, on a server that
nobody else uses: none of the handlers breaks off, the replies are those
of the tree, and what the server holds in the end are the extents of the
tree, in which every file has one name and every name a file. -/
theorem fuse_follows_tree (lib : LibFuse) (now : UInt32) (reqs : List Asked)
    (hsound : Steps (fun t a => some (Asked.onTree lib t a).1) Asked.Sound (.new now) reqs) :
    ∃ t s replies,
      trace (fun t a => some (Asked.onTree lib t a)) (.new now) reqs = some (t, replies) ∧
      trace (Asked.serve lib) (.new now) reqs = some (s, replies) ∧ Mirrors t s ∧ t.Proper :=
  trace_simulates (Asked.onTree lib) (Asked.serve lib) (fun t s => Mirrors t s ∧ t.Proper)
    (fun _ _ a h hC => h.1.serve h.2 hC a.finum) ⟨mirrors_new now, FileTree.proper_new now⟩ hsound

/-- A file is made and found, written to, cut and read, and listed. -/
def oneFileRun : List Asked :=
  [⟨.change (.create 1 [104, 101, 108, 108, 111, 46, 116, 101, 120, 116]), drawing ⟨5, by decide⟩, 0⟩,
    ⟨.lookup 1 [104, 101, 108, 108, 111, 46, 116, 101, 120, 116], drawing ⟨0, by decide⟩, 0⟩,
    ⟨.change (.write 0x80000005 [1, 2, 3] 3 0), drawing ⟨0, by decide⟩, 0⟩,
    ⟨.change (.setattr 0x80000005 2 8), drawing ⟨0, by decide⟩, 0⟩,
    ⟨.read 0x80000005 10 1, drawing ⟨0, by decide⟩, 0⟩,
    ⟨.getattr 0x80000005, drawing ⟨0, by decide⟩, 0⟩,
    ⟨.readdir 1 4096 0, drawing ⟨0, by decide⟩, 0⟩]

theorem fuse_follows_oneFileRun :
    ∃ t s replies,
      trace (fun t a => some (Asked.onTree fuseDirents t a)) (.new 0) oneFileRun =
        some (t, replies) ∧
      trace (Asked.serve fuseDirents) (.new 0) oneFileRun = some (s, replies) ∧
      Mirrors t s ∧ t.Proper := by
  refine fuse_follows_tree fuseDirents 0 oneFileRun ⟨?_, fun t ht => ?_⟩
  · refine ⟨rfl, fun _ => ⟨by decide, by decide, fun e he => ?_, rfl, by decide⟩⟩
    exact absurd he List.not_mem_nil
  cases ht
  refine ⟨⟨rfl, by decide, by decide, fun _ => ?_⟩, fun t ht => ?_⟩
  · simp [LeadsTo, inumOf, Asked.onTree, FileTree.serve, FileTree.change, FileTree.make,
      FileTree.new]
  cases ht
  refine ⟨⟨by decide, fun f hf => ?_⟩, fun t ht => ?_⟩
  · cases hf
    decide
  cases ht
  refine ⟨⟨by decide, fun _ => by decide⟩, fun t ht => ?_⟩
  cases ht
  refine ⟨show (0x80000005 : UInt64) ≠ 1 by decide, fun t ht => ?_⟩
  cases ht
  refine ⟨trivial, fun t ht => ?_⟩
  cases ht
  exact ⟨.inl ⟨rfl, by decide⟩, fun _ _ => trivial⟩

end Yfs
