import Yfs.Common.Run
import Yfs.Files.Fuse

/-!
# Entries and the extents they name

Every entry of a directory names an extent. `create` keeps this for a
file, whose extent it puts before the entry; for a directory it puts none,
and nothing else does. So `mkdir` leaves an entry that names nothing, and
replies with an error, unless the number it drew is the id of an extent
that exists already. `linked_of_steps` says that this, and operations for
files that are done on directories, are the only ways to break it.
-/

namespace Yfs

open Common

/-! ## The property -/

/-- The entries recorded in the directory `id`. -/
def dirEntries (s : ExtentServer) (id : UInt64) : List DirEntry :=
  match s.extents id with
  | none => []
  | some e => recorded e.content

/-- Every entry recorded in a directory names an extent. -/
def Linked (s : ExtentServer) : Prop :=
  ∀ id, YfsClient.isdir id = true → ∀ d ∈ dirEntries s id, (s.extents d.inum).isSome

/-- Where the operation replies with an error, no directory has more
entries than before. -/
def NoEntryOnError (s : ExtentServer) (a : FuseOp × Ambient) : Prop :=
  ∀ s' replies, a.1.serve s a.2 = some (s', replies) → (∃ e, .err e ∈ replies) →
    ∀ id, YfsClient.isdir id = true → (dirEntries s' id).Sublist (dirEntries s id)

/-- The name, if the operation has one, is without `':'`. -/
def FuseOp.Plain : FuseOp → Prop
  | .create _ name => colon ∉ name
  | .mknod _ name => colon ∉ name
  | .mkdir _ name => colon ∉ name
  | .write _ _ _ _ => True
  | .setattr _ _ _ => True

/-- The operation does not break a directory. A `mkdir` that enters its
number in a directory draws the id of an extent; a `write`, or a `setattr`
of the size, is on a file, if on anything. -/
def KeepsLinked (s : ExtentServer) (a : FuseOp × Ambient) : Prop :=
  match a.1 with
  | .mkdir parent name =>
    YfsClient.isdir parent = true → (s.get parent).1 = .ok →
      (appended (s.get parent).2 name (dirID a.2)).length ≤ maxextent →
      (s.extents (dirID a.2)).isSome
  | .write ino _ _ _ => (s.extents ino).isSome → YfsClient.isfile ino = true
  | .setattr ino _ toSet =>
    fuseSetAttrSize &&& toSet ≠ 0 → (s.extents ino).isSome → YfsClient.isfile ino = true
  | _ => True

instance (s : ExtentServer) : (a : FuseOp × Ambient) → Decidable (KeepsLinked s a)
  | (.create _ _, _) => inferInstanceAs (Decidable True)
  | (.mknod _ _, _) => inferInstanceAs (Decidable True)
  | (.mkdir _ _, _) => inferInstanceAs (Decidable (_ → _ → _ ≤ _ → _ = true))
  | (.write _ _ _ _, _) => inferInstanceAs (Decidable (_ = true → _ = true))
  | (.setattr _ _ _, _) => inferInstanceAs (Decidable (_ ≠ _ → _ = true → _ = true))

/-! ## The invariant -/

/-- Every directory has the text of entries with proper names that name
extents. -/
def Tidy (s : ExtentServer) : Prop :=
  ∀ id e, YfsClient.isdir id = true → s.extents id = some e →
    ∃ es, e.content = dirString es ∧
      ∀ d ∈ es, colon ∉ d.name ∧ (s.extents d.inum).isSome

/-- The root is empty in the beginning. -/
theorem tidy_new (now : UInt32) : Tidy (.new now) := by
  intro id e _ he
  rw [ExtentServer.extents_new he]
  exact ⟨[], rfl, by simp⟩

/-- What is recorded in a tidy directory is what its text was made of. -/
theorem Tidy.linked {s : ExtentServer} (h : Tidy s) : Linked s := by
  intro id hdir d hd
  cases he : s.extents id with
  | none =>
    rw [dirEntries, he] at hd
    exact absurd hd List.not_mem_nil
  | some e =>
    obtain ⟨es, hcontent, hes⟩ := h id e hdir he
    rw [dirEntries, he] at hd
    dsimp only at hd
    rw [hcontent, recorded_dirString fun c hc => (hes c hc).1] at hd
    exact (hes d hd).2

/-! ## What an operation does to the directories -/

/-- No directory is changed, and no extent is lost. -/
structure SameDirs (s s' : ExtentServer) : Prop where
  dirs : ∀ id, YfsClient.isdir id = true → s'.extents id = s.extents id
  grows : ∀ id, (s.extents id).isSome → (s'.extents id).isSome

theorem sameDirs_refl (s : ExtentServer) : SameDirs s s := ⟨fun _ _ => rfl, fun _ h => h⟩

theorem SameDirs.trans {s t u : ExtentServer} (h : SameDirs s t) (h' : SameDirs t u) :
    SameDirs s u :=
  ⟨fun id hdir => (h'.dirs id hdir).trans (h.dirs id hdir),
    fun id hid => h'.grows id (h.grows id hid)⟩

theorem isSome_update {s : ExtentServer} {id : UInt64} (id' : UInt64) (e : ExtentInfo)
    (h : (s.extents id).isSome) : (Function.update s.extents id' (some e) id).isSome := by
  by_cases hid : id = id'
  · subst hid
    rw [Function.update_self]
    rfl
  · rwa [Function.update_of_ne hid]

/-- An extent of a file is no directory. -/
theorem sameDirs_update {s : ExtentServer} {id : UInt64} (e : ExtentInfo)
    (hfile : YfsClient.isfile id = true) :
    SameDirs s ⟨Function.update s.extents id (some e)⟩ where
  dirs id' hdir := by
    refine Function.update_of_ne (fun h => ?_) _ _
    rw [h, YfsClient.isdir, hfile] at hdir
    cases hdir
  grows id' h := isSome_update id e h

theorem sameDirs_put {s : ExtentServer} {id : UInt64} (buf : List UInt8) (now : UInt32)
    (hfile : YfsClient.isfile id = true) : SameDirs s (s.put id buf now).1 := by
  rw [ExtentServer.put]
  split
  · exact sameDirs_refl s
  · exact sameDirs_update _ hfile

/-- The extent of a new file is of a file. -/
theorem sameDirs_made (s : ExtentServer) (inum : UInt64) (now : UInt32) :
    SameDirs s (made s inum now) := by
  rw [made]
  split
  · rename_i hfile
    exact sameDirs_put [] now hfile
  · exact sameDirs_refl s

/-- Directories that stay as they are stay tidy. -/
theorem SameDirs.tidy {s s' : ExtentServer} (h : SameDirs s s') (ht : Tidy s) : Tidy s' := by
  intro id e hdir he
  rw [h.dirs id hdir] at he
  obtain ⟨es, hcontent, hes⟩ := ht id e hdir he
  exact ⟨es, hcontent, fun d hd => ⟨(hes d hd).1, h.grows _ (hes d hd).2⟩⟩

/-- Their entries stay as well. -/
theorem SameDirs.dirEntries {s s' : ExtentServer} (h : SameDirs s s') {id : UInt64}
    (hdir : YfsClient.isdir id = true) : dirEntries s' id = dirEntries s id := by
  rw [Yfs.dirEntries, Yfs.dirEntries, h.dirs id hdir]

/-- An extent gets the text of entries that name extents. -/
theorem Tidy.update {s : ExtentServer} {e : ExtentInfo} {es : List DirEntry} (h : Tidy s)
    (id : UInt64) (hcontent : e.content = dirString es)
    (hes : ∀ d ∈ es, colon ∉ d.name ∧ (s.extents d.inum).isSome) :
    Tidy ⟨Function.update s.extents id (some e)⟩ := by
  have hkept : ∀ {ds : List DirEntry}, (∀ d ∈ ds, colon ∉ d.name ∧ (s.extents d.inum).isSome) →
      ∀ d ∈ ds, colon ∉ d.name ∧ (Function.update s.extents id (some e) d.inum).isSome :=
    fun hds d hd => ⟨(hds d hd).1, isSome_update id e (hds d hd).2⟩
  have hold : ∀ id' e', s.extents id' = some e' → YfsClient.isdir id' = true →
      ∃ ds, e'.content = dirString ds ∧
        ∀ d ∈ ds, colon ∉ d.name ∧ (Function.update s.extents id (some e) d.inum).isSome := by
    intro id' e' he' hdir
    obtain ⟨ds, hds, hnames⟩ := h id' e' hdir he'
    exact ⟨ds, hds, hkept hnames⟩
  exact fun id' e' hdir he' =>
    ExtentServer.forall_update hold (fun _ => ⟨es, hcontent, hkept hes⟩) id' e' he' hdir

/-- A directory gets one more entry, which names an extent. -/
theorem Tidy.concat {s : ExtentServer} {parent inum : UInt64} {name content : List UInt8}
    (h : Tidy s) (hdir : YfsClient.isdir parent = true) (hget : s.get parent = (.ok, content))
    (hname : colon ∉ name) (hinum : (s.extents inum).isSome) (now : UInt32) :
    Tidy (s.put parent (appended content name inum) now).1 := by
  obtain ⟨e, hext, rfl⟩ := ExtentServer.get_eq_ok_iff.1 hget
  obtain ⟨es, hcontent, hes⟩ := h parent e hdir hext
  rw [ExtentServer.put]
  split
  · exact h
  · refine h.update parent ((congrArg (appended · name inum) hcontent).trans
      (appended_dirString es ⟨name, inum⟩)) fun d hd => ?_
    rcases List.mem_append.1 hd with hd | hd
    · exact hes d hd
    · obtain rfl := List.mem_singleton.1 hd
      exact ⟨hname, hinum⟩

/-- **`create`** changes no directory, or it succeeds and enters the id of
an extent. This is where the extent of a file comes from, and where that
of a directory has to be there before. -/
theorem create_keeps {s : ExtentServer} {name : List UInt8} (h : Tidy s) (hname : colon ∉ name)
    (parent inum : UInt64) (now now' : UInt32)
    (hinum : YfsClient.isdir parent = true → (s.get parent).1 = .ok →
      (appended (s.get parent).2 name inum).length ≤ maxextent →
      ((made s inum now).extents inum).isSome) :
    Tidy (YfsClient.create s parent inum name now now').1 ∧
      (SameDirs s (YfsClient.create s parent inum name now now').1 ∨
        (YfsClient.create s parent inum name now now').2 = .ok ∧
          ((YfsClient.create s parent inum name now now').1.extents inum).isSome) := by
  have hmade := sameDirs_made s inum now
  by_cases hok : (s.get parent).1 = .ok
  · have hget : s.get parent = (.ok, (s.get parent).2) := Prod.ext hok rfl
    rw [create_eq hget]
    by_cases hfile : YfsClient.isfile parent = true
    · have hsame := hmade.trans (sameDirs_put (appended (s.get parent).2 name inum) now' hfile)
      exact ⟨hsame.tidy h, .inl hsame⟩
    · have hdir : YfsClient.isdir parent = true := by
        rw [YfsClient.isdir, Bool.not_eq_true] at *
        rw [hfile, Bool.not_false]
      by_cases hlen : (appended (s.get parent).2 name inum).length ≤ maxextent
      · have hsome := hinum hdir hok hlen
        have hget' : (made s inum now).get parent = (.ok, (s.get parent).2) := by
          rw [ExtentServer.get, hmade.dirs parent hdir]
          exact hget
        refine ⟨(hmade.tidy h).concat hdir hget' hname hsome now', .inr ⟨if_pos hlen, ?_⟩⟩
        rw [ExtentServer.put, if_neg (by omega)]
        exact isSome_update _ _ hsome
      · -- the text is too long, and the directory stays
        have hsame : SameDirs s
            ((made s inum now).put parent (appended (s.get parent).2 name inum) now').1 := by
          rw [ExtentServer.put, if_pos (by omega)]
          exact hmade
        exact ⟨hsame.tidy h, .inl hsame⟩
  · rw [YfsClient.create]
    dsimp only
    rw [if_pos hok]
    exact ⟨h, .inl (sameDirs_refl s)⟩

/-- `getfile` finds what there is. -/
theorem getfile_ok_iff {s : ExtentServer} {inum : UInt64} {fin : FileInfo} :
    (YfsClient.getfile s inum fin).1 = .ok ↔ (s.extents inum).isSome := by
  rw [YfsClient.getfile, ExtentServer.getattr]
  cases s.extents inum with
  | none => simp
  | some e => simp

theorem isfile_fileID (w : Ambient) : YfsClient.isfile (fileID w) = true := by
  rw [YfsClient.isfile, decide_eq_true_iff]
  intro h
  have hnat := congrArg UInt64.toNat h
  rw [UInt64.toNat_and, fileID, UInt64.toNat_or, Nat.and_or_distrib_right] at hnat
  exact absurd (Nat.or_eq_zero_iff.1 hnat).2 (by decide)

variable {s s' : ExtentServer} {w : Ambient} {parent ino : UInt64} {name : List UInt8}

/-- A new entry names the extent made before it; an error leaves no more
than that extent. -/
theorem createhelper_keeps (h : Tidy s) (hname : colon ∉ name) :
    Tidy (fuseserverCreatehelper s w parent name).1 ∧
      ((fuseserverCreatehelper s w parent name).2.1 ≠ .ok →
        SameDirs s (fuseserverCreatehelper s w parent name).1) := by
  have hlen : ([] : List UInt8).length ≤ maxextent := Nat.zero_le _
  have hmade : ((made s (fileID w) w.now).extents (fileID w)).isSome := by
    rw [made, if_pos (isfile_fileID w), ExtentServer.put, if_neg (Nat.not_lt.2 hlen)]
    simp only [Function.update_self, Option.isSome_some]
  obtain ⟨htidy, hsame⟩ := create_keeps h hname parent (fileID w) w.now w.now' fun _ _ _ => hmade
  rw [fuseserverCreatehelper]
  dsimp only
  split
  · rename_i hst
    exact ⟨htidy, fun _ => hsame.resolve_right fun hok => hst hok.1⟩
  · split
    · rename_i hst
      exact ⟨htidy, fun _ => hsame.resolve_right fun hok => hst (getfile_ok_iff.2 hok.2)⟩
    · exact ⟨htidy, fun hne => absurd rfl hne⟩

/-- `write` on a file, or on nothing, changes no directory. -/
theorem sameDirs_write {buf : List UInt8} {size off : Int32} {now : UInt32} {st : Status}
    (hfile : (s.extents ino).isSome → YfsClient.isfile ino = true)
    (h : YfsClient.write s ino buf size off now = some (s', st)) : SameDirs s s' := by
  rw [YfsClient.write] at h
  dsimp only at h
  split at h
  · cases h
    exact sameDirs_refl s
  · rename_i hok
    obtain ⟨b, -, h⟩ := Option.bind_eq_some_iff.1 h
    obtain ⟨c, -, h⟩ := Option.map_eq_some_iff.1 h
    have hsome : (s.extents ino).isSome := ExtentServer.get_fst_ok_iff.1 (not_not.1 hok)
    have hs' : s' = (s.put ino c now).1 := by
      split at h
      · exact (congrArg Prod.fst h).symm
      · exact (congrArg Prod.fst h).symm
    rw [hs']
    exact sameDirs_put c now (hfile hsome)

/-- A `setattr` on a file touches no directory. -/
theorem sameDirs_setattr (hfile : (s.extents ino).isSome → YfsClient.isfile ino = true)
    (finSize : UInt64) (a : Attr) (now : UInt32) :
    SameDirs s (YfsClient.setattr s ino finSize a now).1 := by
  have hserver : (YfsClient.setattr s ino finSize a now).1 =
      (s.setattr ino { a with size := finSize.toUInt32 } now).1 := by
    rw [YfsClient.setattr]
    split
    · rfl
    · rfl
  rw [hserver, ExtentServer.setattr]
  split
  · exact sameDirs_refl s
  · rename_i e he
    have hino : YfsClient.isfile ino = true := hfile (by rw [he]; rfl)
    split
    · exact sameDirs_update _ hino
    · exact sameDirs_update _ hino

/-- What a handler leaves: the directories are tidy, and none of them has
changed where it replies with an error. -/
def Kept (s : ExtentServer) (r : ExtentServer × List FuseReply) : Prop :=
  Tidy r.1 ∧ ((∃ e, .err e ∈ r.2) → SameDirs s r.1)

theorem SameDirs.kept {r : ExtentServer × List FuseReply} (h : SameDirs s r.1) (ht : Tidy s) :
    Kept s r := ⟨h.tidy ht, fun _ => h⟩

/-- `create` and `mknod` differ in the reply they send where the helper
succeeds. -/
theorem kept_createhelper (h : Tidy s) (hname : colon ∉ name) {reply : FuseReply}
    (hreply : ∀ e, reply ≠ .err e) :
    Kept s (if (fuseserverCreatehelper s w parent name).2.1 = .ok then
        ((fuseserverCreatehelper s w parent name).1, [reply])
      else ((fuseserverCreatehelper s w parent name).1, [.err .enoent])) := by
  obtain ⟨htidy, hsame⟩ := createhelper_keeps h hname
  split
  · refine ⟨htidy, fun herr => ?_⟩
    obtain ⟨e, he⟩ := herr
    exact absurd (List.mem_singleton.1 he).symm (hreply e)
  · rename_i hst
    exact ⟨htidy, fun _ => hsame hst⟩

/-- The number that `mkdir` enters is that of an extent. -/
theorem kept_mkdir (h : Tidy s) (hname : colon ∉ name)
    (hk : KeepsLinked s (.mkdir parent name, w)) : Kept s (fuseserverMkdir s w parent name) := by
  obtain ⟨htidy, hsame⟩ := create_keeps h hname parent (dirID w) w.now w.now' fun hdir hok hlen =>
    (sameDirs_made s (dirID w) w.now).grows _ (hk hdir hok hlen)
  rw [fuseserverMkdir]
  dsimp only
  split
  · rename_i hst
    exact ⟨htidy, fun _ => hsame.resolve_right fun hok => hst hok.1⟩
  · split
    · rename_i hst
      exact ⟨htidy, fun _ => hsame.resolve_right fun hok => hst (getfile_ok_iff.2 hok.2)⟩
    · refine ⟨htidy, fun herr => ?_⟩
      obtain ⟨e, he⟩ := herr
      simp at he

/-- A `write` on a file, or on nothing, keeps the directories. -/
theorem kept_write {buf : List UInt8} {size : UInt64} {off : Int64}
    {r : ExtentServer × List FuseReply} (h : Tidy s)
    (hk : KeepsLinked s (.write ino buf size off, w))
    (hr : fuseserverWrite s w ino buf size off = some r) : Kept s r := by
  obtain ⟨x, hx, hr⟩ := Option.map_eq_some_iff.1 hr
  have hfst : r.1 = x.1 := by
    split at hr
    · exact (congrArg Prod.fst hr).symm
    · exact (congrArg Prod.fst hr).symm
  refine SameDirs.kept ?_ h
  rw [hfst]
  exact sameDirs_write hk hx

/-- A `setattr` that is not of the size touches nothing at all. -/
theorem kept_setattr {stSize : Int64} {toSet : UInt32} (h : Tidy s)
    (hk : KeepsLinked s (.setattr ino stSize toSet, w)) :
    Kept s (fuseserverSetattr s w ino stSize toSet) := by
  refine SameDirs.kept ?_ h
  rw [fuseserverSetattr]
  dsimp only
  split
  · rename_i hsize
    have hsame := sameDirs_setattr (hk hsize) stSize.toUInt64 w.attr w.now
    split
    · exact hsame
    · split
      · exact hsame
      · exact hsame
  · -- the size is not to be set, and the reply is an error
    exact sameDirs_refl s

/-- **One operation** keeps the directories tidy, and changes none of them
where it replies with an error. -/
theorem kept_serve {a : FuseOp × Ambient} {r : ExtentServer × List FuseReply} (h : Tidy s)
    (hplain : a.1.Plain) (hk : KeepsLinked s a) (hs : a.1.serve s a.2 = some r) : Kept s r := by
  obtain ⟨op, w⟩ := a
  cases op with
  | create parent name =>
    exact Option.some.inj hs ▸ kept_createhelper h hplain fun e he => FuseReply.noConfusion he
  | mknod parent name =>
    exact Option.some.inj hs ▸ kept_createhelper h hplain fun e he => FuseReply.noConfusion he
  | mkdir parent name => exact Option.some.inj hs ▸ kept_mkdir h hplain hk
  | write ino buf size off => exact kept_write h hk hs
  | setattr ino stSize toSet => exact Option.some.inj hs ▸ kept_setattr h hk

/-! ## Every run -/

/-- One step of a run. -/
theorem Tidy.step {s' : ExtentServer} {a : FuseOp × Ambient} (h : Tidy s)
    (ha : a.1.Plain ∧ KeepsLinked s a) (hs : fuseStep s a = some s') : Tidy s' := by
  obtain ⟨r, hr, rfl⟩ := Option.map_eq_some_iff.1 hs
  exact (kept_serve h ha.1 ha.2 hr).1

/-- **Every entry names an extent, where `mkdir` finds one.** In a run of
operations from the constructor, with names without `':'`, in which every
`mkdir` that enters a number in a directory draws the id of an extent that
exists, and no `write` or `setattr` of the size is on a directory, every
entry of every directory names an extent, in every state; and no operation
that replies with an error adds an entry. -/
theorem linked_of_steps (now : UInt32) (ops : List (FuseOp × Ambient))
    (hplain : ∀ a ∈ ops, a.1.Plain) (hk : Steps fuseStep KeepsLinked (.new now) ops) :
    Along fuseStep Linked (.new now) ops ∧ Steps fuseStep NoEntryOnError (.new now) ops := by
  have hsteps := (steps_of_forall (C := fun _ a => a.1.Plain)
    fun a ha _ => hplain a ha).and hk
  refine ⟨along_of_steps (fun _ _ _ h ha hs => h.step ha hs) (fun _ h => h.linked)
    (tidy_new now) hsteps, steps_of_steps (fun _ _ _ h ha hs => h.step ha hs)
      (fun s a h hc => ?_) (tidy_new now) hsteps⟩
  intro s' replies hs herr id hdir
  rw [((kept_serve h hc.1 hc.2 hs).2 herr).dirEntries hdir]

/-- The surroundings of an operation that draws `random`. -/
def drawing (random : Fin (2 ^ 31)) : Ambient :=
  ⟨random, 1, 2, ⟨0, ⟨0, 0, 0, 0, 0, 0, 0⟩⟩, ⟨0, 0, 0, 0, 0, 0, 0⟩, ⟨0, 0, 0, 0⟩, ⟨0, 0, 0, 0⟩⟩

/-- A file is made, written to and cut, the root gets another mode, and a
directory the number of the root. -/
def tidyRun : List (FuseOp × Ambient) :=
  [(.create 1 [97], drawing 5), (.write 0x80000005 [120, 121, 0] 2 0, drawing 0),
    (.setattr 0x80000005 1 8, drawing 0), (.setattr 1 0 1, drawing 0),
    (.mkdir 1 [100], drawing 1)]

theorem linked_tidyRun :
    Along fuseStep Linked (.new 0) tidyRun ∧ Steps fuseStep NoEntryOnError (.new 0) tidyRun := by
  have hplain : ∀ a ∈ tidyRun, a.1.Plain := by
    simp [tidyRun, FuseOp.Plain, colon]
  exact linked_of_steps 0 tidyRun hplain (by decide)

/-- A directory is made in the root: the reply is an error, and the root
has an entry that names nothing. -/
theorem not_linked_mkdir :
    (FuseOp.mkdir 1 [100]).Plain ∧
    ¬ Along fuseStep Linked (.new 0) [(.mkdir 1 [100], drawing 5)] ∧
    ¬ Steps fuseStep NoEntryOnError (.new 0) [(.mkdir 1 [100], drawing 5)] := by
  refine ⟨by simp [FuseOp.Plain, colon], fun h => ?_, fun h => ?_⟩
  · have hlinked := h.2 _ rfl 1 rfl ⟨[100], 5⟩ (by decide)
    exact absurd hlinked (by decide)
  · have hsub := h.1 _ _ rfl ⟨.enosys, by decide⟩ 1 rfl
    exact absurd hsub (by decide)
end Yfs
