import Yfs.Files.Directory

/-!
# Looking up a name

`ilookup` looks for `name:` anywhere in the text of a directory. It is
found at the end of the first field that ends in the name, which may be a
longer name or an id, and what follows that field is read as the answer.
`lookedUp_iff` says when the answer is right all the same.
-/

namespace Yfs

open Common

variable {parentID : UInt64} {s s' : ExtentServer} {es : List DirEntry} {name : List UInt8}
variable {inum : UInt64}

/-- What `ilookup` answers, from the fields behind the one that it takes
for the name. Behind the last field there is nothing to read. -/
def lookupAnswer (finum : UInt64) : Option (List (List UInt8)) → UInt64
  | none => 0
  | some [] => finum
  | some (id :: _) => YfsClient.n2i finum id

/-- **`ilookup`** finds the first field that ends in the name. -/
theorem ilookup_eq (hget : s.get parentID = (.ok, dirString es)) (hes : ∀ e ∈ es, colon ∉ e.name)
    (hne : name ≠ []) (hname : colon ∉ name) (finum : UInt64) :
    YfsClient.ilookup s finum parentID name =
      some (lookupAnswer finum (after name (fields es))) := by
  have hcontent : ∃ fs, dirString es ++ [colon] = terminated colon fs ∧
      after name fs = after name (fields es) ∧ ∀ f ∈ fs, colon ∉ f := by
    by_cases hnil : es = []
    · -- the text is one `':'`, in front of which there is an empty field
      subst hnil
      refine ⟨[[]], rfl, ?_, by simp⟩
      simp [after, fields, hne]
    · exact ⟨fields es, (terminated_fields hnil).symm, rfl, colon_not_mem_fields hes⟩
  obtain ⟨fs, hfs, hafter, hcolon⟩ := hcontent
  rw [YfsClient.ilookup, hget]
  dsimp only
  rw [if_neg (not_not.2 rfl), hfs, ← hafter, stringFind_zero]
  cases h : after name fs with
  | none =>
    rw [find_terminated_of_after_none hname hcolon h]
    rfl
  | some gs =>
    obtain ⟨pre, hpre, hfind⟩ := find_terminated_of_after hname hcolon h
    have hhead : pre.length + (name ++ [colon]).length = (pre ++ (name ++ [colon])).length :=
      (List.length_append).symm
    rw [hfind, hpre]
    dsimp only
    rw [hhead, stringFind_append, stringSubstr_append, Option.map_some]
    cases gs with
    | nil => simp [lookupAnswer, find, YfsClient.n2i]
    | cons id gs =>
      have hid : colon ∉ id := hcolon id ((after_suffix h).subset List.mem_cons_self)
      rw [terminated_cons, find_sep _ hid, Option.map_some, Option.getD_some, Nat.add_sub_cancel,
        List.take_left]
      rfl

/-! ## The answer -/

/-- The id a name was created with, and 0 for one that was not. -/
def inumOf (es : List DirEntry) (name : List UInt8) : UInt64 :=
  match es.find? fun e => e.name = name with
  | some e => e.inum
  | none => 0

/-- The first field that ends in the name, if there is one, leads to
`inum` all the same: it is the name of an entry with this id, or it is an
id and the name after it reads as `inum`. -/
def LeadsTo (name : List UInt8) (inum : UInt64) : List DirEntry → Prop
  | [] => True
  | e :: es =>
    if name <:+ e.name then e.inum = inum
    else if name <:+ YfsClient.filename e.inum then
      ∃ d ∈ es.head?, ∀ finum, YfsClient.n2i finum d.name = inum
    else LeadsTo name inum es

/-- What is read behind a field that is an id. -/
theorem lookupAnswer_fields_iff :
    (∀ finum, lookupAnswer finum (some (fields es)) = inum) ↔
      ∃ d ∈ es.head?, ∀ finum, YfsClient.n2i finum d.name = inum := by
  cases es with
  | nil =>
    -- nothing is assigned to `finum`
    refine iff_of_false (fun h => ?_) (by simp)
    have hne : inum + 1 ≠ inum := by simp
    exact hne (h (inum + 1))
  | cons d es => simp [lookupAnswer, fields]

theorem lookupAnswer_iff (h : after name (fields es) = none → inum = 0) :
    (∀ finum, lookupAnswer finum (after name (fields es)) = inum) ↔ LeadsTo name inum es := by
  induction es with
  | nil => exact iff_of_true (fun finum => (h rfl).symm) trivial
  | cons e es ih =>
    have hcons : fields (e :: es) = e.name :: YfsClient.filename e.inum :: fields es := rfl
    rw [hcons, after, after] at h ⊢
    rw [LeadsTo]
    by_cases hsuf : name <:+ e.name
    · rw [if_pos hsuf, if_pos hsuf]
      simp [lookupAnswer, n2i_filename]
    · rw [if_neg hsuf] at h ⊢
      rw [if_neg hsuf]
      by_cases hid : name <:+ YfsClient.filename e.inum
      · rw [if_pos hid, if_pos hid]
        exact lookupAnswer_fields_iff
      · rw [if_neg hid] at h ⊢
        rw [if_neg hid]
        exact ih h

theorem inumOf_of_after_none (h : after name (fields es) = none) : inumOf es name = 0 := by
  have hnone : (es.find? fun e => e.name = name) = none := by
    refine List.find?_eq_none.2 fun e he hname => not_mem_of_after_none h ?_
    rw [← of_decide_eq_true hname]
    exact List.mem_flatMap.2 ⟨e, he, List.mem_cons_self⟩
  rw [inumOf, hnone]

/-- **Lookup is exact, exactly where the first field that ends in the
name leads to the right id.** After any `create`s on an empty directory,
with names that have no `':'`, `ilookup` answers with the id a name was
created with, and with 0 if it was not, if and only if no field of the
directory ends in the name, or the first that does is the name of an entry
with this id, or it is an id and the name after it reads as this id. -/
theorem lookedUp_iff {cs : List Creation} (h0 : EmptyDir parentID s)
    (hcs : ∀ c ∈ cs, colon ∉ c.name) (hexec : exec (createStep parentID) s cs = some s')
    (hne : name ≠ []) (hname : colon ∉ name) :
    (∀ finum, YfsClient.ilookup s' finum parentID name =
        some (inumOf (cs.map Creation.toDirEntry) name)) ↔
      LeadsTo name (inumOf (cs.map Creation.toDirEntry) name) (cs.map Creation.toDirEntry) := by
  have hget := (get_of_creates h0 hexec).1
  have hes : ∀ e ∈ cs.map Creation.toDirEntry, colon ∉ e.name := List.forall_mem_map.2 hcs
  generalize cs.map Creation.toDirEntry = es at hget hes ⊢
  rw [← lookupAnswer_iff inumOf_of_after_none]
  simp only [ilookup_eq hget hes hne hname, Option.some.injEq]

/-- Two files. -/
def barAndAr : List Creation :=
  [⟨⟨[98, 97, 114], 2147483653⟩, 1, 2⟩, ⟨⟨[97, 114], 2147483654⟩, 3, 4⟩]

theorem lookedUp_bar : ∃ s', exec (createStep 1) (.new 0) barAndAr = some s' ∧
    ∀ finum, YfsClient.ilookup s' finum 1 [98, 97, 114] = some 2147483653 := by
  have h0 : EmptyDir 1 (.new 0) := rfl
  have hcs : ∀ c ∈ barAndAr, colon ∉ c.name := by decide
  refine ⟨_, rfl, (lookedUp_iff h0 hcs rfl (by decide) (by decide)).2 ?_⟩
  simp [LeadsTo, barAndAr, inumOf]

/-- The second of them is looked up as the first, whose name ends in its
name. -/
theorem not_lookedUp_ar : EmptyDir 1 (.new 0) ∧ ∃ s',
    exec (createStep 1) (.new 0) barAndAr = some s' ∧
    ∀ finum, YfsClient.ilookup s' finum 1 [97, 114] ≠ some 2147483654 := by
  refine ⟨rfl, _, rfl, fun finum => ?_⟩
  change some (YfsClient.n2i finum (YfsClient.filename 2147483653)) ≠ _
  rw [n2i_filename]
  decide

end Yfs
