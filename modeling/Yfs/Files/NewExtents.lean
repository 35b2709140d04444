import Yfs.Files.Entries
import Yfs.Files.Store

/-!
# New extents and the old ones

`yfs_client::create` puts the extent of a new file before it knows that
the entry fits in the directory, and puts it whether or not there is one:
the number comes from `random`, and nothing looks for it. So a failed
`create` can leave an extent behind, or one emptied
(`create_allOrNothing_iff`), and a number drawn twice empties a file, or
gives it a second entry (`leavesAlone_iff`).
-/

namespace Yfs

open Common

/-! ## The contents after a `create` -/

/-- The entry fits in the directory. -/
def EntryFits (s : ExtentServer) (parentID inum : UInt64) (name : List UInt8) : Prop :=
  (appended (s.get parentID).2 name inum).length ≤ maxextent

instance entryFits_decidable (s : ExtentServer) (parentID inum : UInt64) (name : List UInt8) :
    Decidable (EntryFits s parentID inum name) := inferInstanceAs (Decidable (_ ≤ _))

theorem contents_made (s : ExtentServer) (inum : UInt64) (now : UInt32) :
    (made s inum now).contents =
      if YfsClient.isfile inum then Function.update s.contents inum (some []) else s.contents := by
  rw [made]
  split
  · have hnil : ([] : List UInt8).length ≤ maxextent := Nat.zero_le _
    rw [ExtentServer.contents_put, if_pos hnil]
  · rfl

section

variable {s : ExtentServer} {parentID inum : UInt64} {name : List UInt8} {now now' : UInt32}

theorem create_of_not_ok (hget : (s.get parentID).1 ≠ .ok) :
    YfsClient.create s parentID inum name now now' = (s, .ioerr) := by
  rw [YfsClient.create]
  exact if_pos hget

theorem create_ok_iff :
    (YfsClient.create s parentID inum name now now').2 = .ok ↔
      (s.get parentID).1 = .ok ∧ EntryFits s parentID inum name := by
  by_cases hget : (s.get parentID).1 = .ok
  · rw [create_eq (Prod.ext hget rfl)]
    simp only [hget, true_and, EntryFits]
    split
    · rename_i hlen
      exact iff_of_true rfl hlen
    · rename_i hlen
      exact iff_of_false (by decide) hlen
  · rw [create_of_not_ok hget]
    exact iff_of_false (fun h => Status.noConfusion h) fun h => hget h.1

/-- The directory was there: the new extent is made, and the entry put
if it fits. -/
theorem contents_create (hget : (s.get parentID).1 = .ok) :
    (YfsClient.create s parentID inum name now now').1.contents =
      if EntryFits s parentID inum name then
        Function.update (made s inum now).contents parentID
          (some (appended (s.get parentID).2 name inum))
      else (made s inum now).contents := by
  rw [create_eq (Prod.ext hget rfl), ExtentServer.contents_put]
  rfl

end

/-! ## A `create` that fails -/

/-- An extent is put first, which is not there yet, or not empty, and
then there is no room for the entry. -/
def MakesInVain (s : ExtentServer) (parentID inum : UInt64) (name : List UInt8) : Prop :=
  (s.get parentID).1 = .ok ∧ YfsClient.isfile inum = true ∧ ¬ EntryFits s parentID inum name ∧
    s.contents inum ≠ some []

/-- **When a `create` that fails leaves no trace.** -/
theorem create_allOrNothing_iff (s : ExtentServer) (parentID inum : UInt64) (name : List UInt8)
    (now now' : UInt32) :
    ((YfsClient.create s parentID inum name now now').2 ≠ .ok →
        (YfsClient.create s parentID inum name now now').1.contents = s.contents) ↔
      ¬ MakesInVain s parentID inum name := by
  by_cases hget : (s.get parentID).1 = .ok
  · by_cases hfits : EntryFits s parentID inum name
    · have hok : (YfsClient.create s parentID inum name now now').2 = .ok :=
        create_ok_iff.2 ⟨hget, hfits⟩
      exact iff_of_true (fun hne => absurd hok hne) fun hv => hv.2.2.1 hfits
    · have hne : (YfsClient.create s parentID inum name now now').2 ≠ .ok :=
        fun hok => hfits (create_ok_iff.1 hok).2
      rw [contents_create hget, if_neg hfits, contents_made]
      split
      · rename_i hfile
        -- what is left behind is an empty extent under the number of the file
        rw [Function.update_eq_self_iff]
        constructor
        · exact fun h hv => hv.2.2.2 (h hne).symm
        · intro hv _
          by_contra hc
          exact hv ⟨hget, hfile, hfits, fun h => hc h.symm⟩
      · rename_i hfile
        exact iff_of_true (fun _ => rfl) fun hv => hfile hv.2.1
  · rw [create_of_not_ok hget]
    exact iff_of_true (fun _ => rfl) fun hv => hget hv.1

/-- The root directory has the content `c`. -/
def rootWith (c : List UInt8) : ExtentServer := ((ExtentServer.new 0).put 1 c 0).1

theorem reachable_rootWith (c : List UInt8) : (rootWith c).Reachable :=
  ⟨0, [.put 1 c 0], _, rfl, rfl⟩

/-- In a full directory there is no room for an entry. -/
theorem not_entryFits_of_full {c : List UInt8} (hc : c.length = maxextent) (inum : UInt64)
    (name : List UInt8) : ¬ EntryFits (rootWith c) 1 inum name := by
  have hget : (rootWith c).get 1 = (.ok, c) := ExtentServer.get_put_self 0 (Nat.le_of_eq hc)
  rw [EntryFits, hget, appended]
  simp only [List.length_append, List.length_singleton]
  split
  · rw [List.length_append, hc, List.length_singleton]
    omega
  · rw [hc]
    omega

theorem create_of_full {c : List UInt8} (hc : c.length = maxextent) :
    (YfsClient.create (rootWith c) 1 0x80000005 [98] 1 2).2 ≠ .ok ∧
      (rootWith c).contents 0x80000005 = none ∧
      (YfsClient.create (rootWith c) 1 0x80000005 [98] 1 2).1.contents 0x80000005 = some [] := by
  have hget : (rootWith c).get 1 = (.ok, c) := ExtentServer.get_put_self 0 (Nat.le_of_eq hc)
  have hlong := not_entryFits_of_full hc 0x80000005 [98]
  refine ⟨fun hok => hlong (create_ok_iff.1 hok).2, ?_, ?_⟩
  · rw [rootWith, ExtentServer.contents_put, if_pos (Nat.le_of_eq hc),
      Function.update_of_ne (by decide)]
    rfl
  · rw [contents_create (congrArg Prod.fst hget), if_neg hlong, contents_made,
      if_pos (by decide), Function.update_self]

/-- In a full directory `create` fails, and there is a file more. -/
theorem create_leaves_file :
    (rootWith (List.replicate maxextent 97)).Reachable ∧
      (YfsClient.create (rootWith (List.replicate maxextent 97)) 1 0x80000005 [98] 1 2).2 ≠ .ok ∧
      (rootWith (List.replicate maxextent 97)).contents 0x80000005 = none ∧
      (YfsClient.create (rootWith (List.replicate maxextent 97)) 1 0x80000005 [98] 1 2).1.contents
        0x80000005 = some [] :=
  ⟨reachable_rootWith _, create_of_full List.length_replicate⟩

/-! ## Numbers drawn -/

/-- The number is not the root's, and no directory has an entry for it. -/
def Unused (s : ExtentServer) (inum : UInt64) : Prop :=
  inum ≠ 1 ∧ ∀ id, YfsClient.isdir id = true → ∀ d ∈ dirEntries s id, d.inum ≠ inum

/-- What making `name` in `parent` is to leave alone: the contents of all
extents there were, except `parent`, and, where `parent` has a new entry,
the entries there were, which do not have its number. -/
def LeavesAlone (s s' : ExtentServer) (parent : UInt64) (name : List UInt8) : Prop :=
  (∀ id, id ≠ parent → (s.extents id).isSome → s'.contents id = s.contents id) ∧
    ∀ c inum, s.contents parent = some c → s'.contents parent = some (appended c name inum) →
      Unused s inum

/-- The number drawn does no harm: if it is for a file then there is
nothing in an extent that has it, and if it is entered it is unused. -/
def FreshDraw (s : ExtentServer) (parent inum : UInt64) (name : List UInt8) : Prop :=
  (s.get parent).1 = .ok →
    (YfsClient.isfile inum = true → s.contents inum = none ∨ s.contents inum = some []) ∧
      (EntryFits s parent inum name → Unused s inum)

theorem appended_inj {c name : List UInt8} {inum inum' : UInt64}
    (h : appended c name inum = appended c name inum') : inum = inum' := by
  have hname : YfsClient.filename inum = YfsClient.filename inum' := List.append_cancel_left h
  rw [← stringToid_filename inum, hname, stringToid_filename]

theorem appended_ne_self (c name : List UInt8) (inum : UInt64) : appended c name inum ≠ c := by
  intro h
  have hlen := congrArg List.length h
  rw [appended] at hlen
  simp only [List.length_append, List.length_singleton] at hlen
  split at hlen
  · rw [List.length_append, List.length_singleton] at hlen
    omega
  · omega

theorem ne_of_isfile {parent inum : UInt64} (hdir : YfsClient.isdir parent = true)
    (hfile : YfsClient.isfile inum = true) : parent ≠ inum := by
  rintro rfl
  rw [YfsClient.isdir, hfile] at hdir
  cases hdir

section

variable {s : ExtentServer} {parent inum : UInt64} {name : List UInt8} {now now' : UInt32}

/-- A directory is not what `create` makes. -/
theorem contents_made_dir (hdir : YfsClient.isdir parent = true) :
    (made s inum now).contents parent = s.contents parent := by
  rw [contents_made]
  split
  · rename_i hfile
    rw [Function.update_of_ne (ne_of_isfile hdir hfile)]
  · rfl

/-- The other extents after a `create`. -/
theorem contents_create_of_ne (hget : (s.get parent).1 = .ok) {id : UInt64} (hid : id ≠ parent) :
    (YfsClient.create s parent inum name now now').1.contents id =
      (made s inum now).contents id := by
  rw [contents_create hget]
  split
  · rw [Function.update_of_ne hid]
  · rfl

/-- The directory after it. -/
theorem contents_create_parent (hdir : YfsClient.isdir parent = true)
    (hget : (s.get parent).1 = .ok) :
    (YfsClient.create s parent inum name now now').1.contents parent =
      if EntryFits s parent inum name then some (appended (s.get parent).2 name inum)
      else some (s.get parent).2 := by
  rw [contents_create hget]
  split
  · rw [Function.update_self]
  · rw [contents_made_dir hdir, ExtentServer.contents_of_get hget]

/-- **When `create` disturbs nothing.** -/
theorem create_leavesAlone_iff (hdir : YfsClient.isdir parent = true) :
    LeavesAlone s (YfsClient.create s parent inum name now now').1 parent name ↔
      FreshDraw s parent inum name := by
  by_cases hget : (s.get parent).1 = .ok
  · have hcontent := ExtentServer.contents_of_get hget
    constructor
    · intro h _
      refine ⟨fun hfile => ?_, fun hfits => ?_⟩
      · -- the extent the file gets was there before, or it was not
        cases hc : s.contents inum with
        | none => exact .inl rfl
        | some c =>
          have hsome : (s.extents inum).isSome := by
            rw [← ExtentServer.isSome_contents, hc]
            rfl
          have hne : inum ≠ parent := (ne_of_isfile hdir hfile).symm
          have hkept := h.1 inum hne hsome
          rw [contents_create_of_ne hget hne, contents_made, if_pos hfile, Function.update_self,
            hc] at hkept
          exact .inr hkept.symm
      · refine h.2 (s.get parent).2 inum hcontent ?_
        rw [contents_create_parent hdir hget, if_pos hfits]
    · intro h
      obtain ⟨hempty, hunused⟩ := h hget
      refine ⟨fun id hid hsome => ?_, fun c inum' hc hc' => ?_⟩
      · rw [contents_create_of_ne hget hid, contents_made]
        split
        · rename_i hfile
          by_cases hidi : id = inum
          · subst hidi
            rw [Function.update_self]
            refine ((hempty hfile).resolve_left fun hnone => ?_).symm
            rw [← ExtentServer.isSome_contents, hnone] at hsome
            cases hsome
          · rw [Function.update_of_ne hidi]
        · rfl
      · rw [hcontent, Option.some.injEq] at hc
        rw [contents_create_parent hdir hget, hc] at hc'
        split at hc'
        · rename_i hfits
          rw [← appended_inj (Option.some.inj hc')]
          exact hunused hfits
        · exact absurd (Option.some.inj hc').symm (appended_ne_self c name inum')
  · rw [create_of_not_ok hget]
    refine iff_of_true ⟨fun _ _ _ => rfl, fun c inum' hc hc' => ?_⟩ fun hok => absurd hok hget
    rw [hc] at hc'
    exact absurd (Option.some.inj hc').symm (appended_ne_self c name inum')

end

/-- What an operation makes: where, under which name, and the number it
draws. -/
def FuseOp.makes (w : Ambient) : FuseOp → Option (UInt64 × List UInt8 × UInt64)
  | .create parent name => some (parent, name, fileID w)
  | .mknod parent name => some (parent, name, fileID w)
  | .mkdir parent name => some (parent, name, dirID w)
  | _ => none

theorem createhelper_fst (s : ExtentServer) (w : Ambient) (parent : UInt64) (name : List UInt8) :
    (fuseserverCreatehelper s w parent name).1 =
      (YfsClient.create s parent (fileID w) name w.now w.now').1 := by
  rw [fuseserverCreatehelper]
  dsimp only
  split
  · rfl
  · split
    · rfl
    · rfl

theorem create_fst (s : ExtentServer) (w : Ambient) (parent : UInt64) (name : List UInt8) :
    (fuseserverCreate s w parent name).1 =
      (YfsClient.create s parent (fileID w) name w.now w.now').1 := by
  rw [← createhelper_fst, fuseserverCreate]
  split
  · rfl
  · rfl

theorem mknod_fst (s : ExtentServer) (w : Ambient) (parent : UInt64) (name : List UInt8) :
    (fuseserverMknod s w parent name).1 =
      (YfsClient.create s parent (fileID w) name w.now w.now').1 := by
  rw [← createhelper_fst, fuseserverMknod]
  split
  · rfl
  · rfl

theorem mkdir_fst (s : ExtentServer) (w : Ambient) (parent : UInt64) (name : List UInt8) :
    (fuseserverMkdir s w parent name).1 =
      (YfsClient.create s parent (dirID w) name w.now w.now').1 := by
  rw [fuseserverMkdir]
  dsimp only
  split
  · rfl
  · split
    · rfl
    · rfl

/-- What the three handlers leave is what `create` leaves: none undoes
anything. -/
theorem serve_fst_of_makes {s s' : ExtentServer} {w : Ambient} {op : FuseOp} {parent inum : UInt64}
    {name : List UInt8} {replies : List FuseReply} (hop : op.makes w = some (parent, name, inum))
    (hs : op.serve s w = some (s', replies)) :
    s' = (YfsClient.create s parent inum name w.now w.now').1 := by
  have hfst : ∀ r, op.serve s w = some r → r.1 = s' :=
    fun r hr => congrArg Prod.fst (Option.some.inj (hr.symm.trans hs))
  cases op with
  | create parent name =>
    cases hop
    rw [← create_fst]
    exact (hfst _ rfl).symm
  | mknod parent name =>
    cases hop
    rw [← mknod_fst]
    exact (hfst _ rfl).symm
  | mkdir parent name =>
    cases hop
    rw [← mkdir_fst]
    exact (hfst _ rfl).symm
  | write => cases hop
  | setattr => cases hop

/-- **When making a file or a directory disturbs nothing.** -/
theorem leavesAlone_iff (s s' : ExtentServer) (w : Ambient) (op : FuseOp) (parent inum : UInt64)
    (name : List UInt8) (replies : List FuseReply) (hop : op.makes w = some (parent, name, inum))
    (hdir : YfsClient.isdir parent = true) (hs : op.serve s w = some (s', replies)) :
    LeavesAlone s s' parent name ↔ FreshDraw s parent inum name := by
  rw [serve_fst_of_makes hop hs]
  exact create_leavesAlone_iff hdir

/-- Where entries name extents, a number without an extent is unused. -/
theorem unused_of_linked {s : ExtentServer} {inum : UInt64} (h : Linked s) (hne : inum ≠ 1)
    (hnone : s.extents inum = none) : Unused s inum := by
  refine ⟨hne, fun id hdir d hd heq => ?_⟩
  have hsome := h id hdir d hd
  rw [heq, hnone] at hsome
  cases hsome

/-- A file is made and written to, the next one has a number of its own,
and the first is as it was. -/
theorem leavesAlone_second_file : ∃ s, exec fuseStep (.new 0) [(.create 1 [97], drawing 5),
      (.write 0x80000005 [120, 0] 1 0, drawing 0)] = some s ∧
    s.contents 0x80000005 = some [120] ∧
    LeavesAlone s (fuseserverCreate s (drawing 6) 1 [98]).1 1 [98] := by
  obtain ⟨s, hs⟩ : ∃ s, exec fuseStep (.new 0) [(.create 1 [97], drawing 5),
      (.write 0x80000005 [120, 0] 1 0, drawing 0)] = some s := ⟨_, rfl⟩
  have hplain : ∀ a ∈ [(FuseOp.create 1 [97], drawing 5),
      (.write 0x80000005 [120, 0] 1 0, drawing 0)], a.1.Plain := by
    simp [FuseOp.Plain, colon]
  have htidy : Tidy s := exec_invariant_of_steps (fun _ _ _ h ha hs => h.step ha hs) (tidy_new 0)
    ((steps_of_forall fun a ha _ => hplain a ha).and (by decide)) hs
  obtain rfl := Option.some.inj hs
  refine ⟨_, rfl, rfl, (leavesAlone_iff _ _ (drawing 6) (.create 1 [98]) 1 0x80000006 [98] _ rfl
    rfl rfl).2 fun _ => ⟨fun _ => .inl rfl, fun _ => ?_⟩⟩
  exact unused_of_linked htidy.linked (by decide) rfl

/-- A file is made and written to, the next one draws its number, and what
was written is gone; and a directory draws the number of the root. -/
theorem not_leavesAlone_drawn_twice :
    (∃ s, exec fuseStep (.new 0) [(.create 1 [97], drawing 5),
        (.write 0x80000005 [120, 0] 1 0, drawing 0)] = some s ∧
      ¬ LeavesAlone s (fuseserverCreate s (drawing 5) 1 [98]).1 1 [98]) ∧
      ¬ LeavesAlone (.new 0) (fuseserverMkdir (.new 0) (drawing 1) 1 [100]).1 1 [100] := by
  refine ⟨⟨_, rfl, fun h => ?_⟩, fun h => ?_⟩
  · exact absurd (h.1 0x80000005 (by decide) (by decide)) (by decide)
  · exact absurd rfl (h.2 [] 1 rfl (by decide)).1

end Yfs
