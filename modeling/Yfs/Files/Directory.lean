import Mathlib.Data.List.TakeWhile
import Yfs.Common.Decimal
import Yfs.Common.Fields
import Yfs.Common.Run
import Yfs.Files.Client

/-!
# Directories

A directory is an extent whose content is `name:id:name:id…`. This file
has the operations of `yfs_client.cc` on such contents, `create`,
`getDirContent` and `ilookup`, with the text forms of ids they use, and
what a sequence of `create`s leaves in an empty directory
(`get_of_creates`).
-/

namespace Yfs

open Common

/-- The byte `':'`. -/
def colon : UInt8 := 58

/-- `std::string::find`, from a position on. -/
def stringFind (s pat : List UInt8) (pos : ℕ) : Option ℕ :=
  if pos > s.length then none else (find pat (s.drop pos)).map (· + pos)

theorem stringFind_zero (s pat : List UInt8) : stringFind s pat 0 = find pat s := by
  rw [stringFind, if_neg (Nat.not_lt_zero _), List.drop_zero]
  exact Option.map_id'

/-- `isspace`, in the C locale. -/
def isSpace (c : UInt8) : Bool := c == 32 || decide (9 ≤ c.toNat ∧ c.toNat ≤ 13)

namespace YfsClient

/-- `yfs_client::n2i`. Where there is nothing but white space to read,
`>>` assigns nothing and the result is what the variable held before; it
assigns 0 where it finds no digits, and the largest value where it finds
too many. -/
def n2i (finum : UInt64) (n : List UInt8) : UInt64 :=
  match n.dropWhile isSpace with
  | [] => finum
  | c :: l =>
    let ds := (if c = 45 ∨ c = 43 then l else c :: l).takeWhile isDigit
    if ds = [] then 0
    else if ofDecimal ds ≥ 2 ^ 64 then -1
    else if c = 45 then -UInt64.ofNat (ofDecimal ds)
    else UInt64.ofNat (ofDecimal ds)

/-- `yfs_client::filename`. -/
def filename (inum : UInt64) : List UInt8 := decimal inum.toNat

/-- `yfs_client::isfile`. -/
def isfile (inum : UInt64) : Bool := inum &&& 0x80000000 ≠ 0

/-- `yfs_client::isdir`. -/
def isdir (inum : UInt64) : Bool := !isfile inum

/-- `stringToid`. A `char` is signed. -/
def stringToid (s : List UInt8) : UInt64 :=
  s.foldl (fun ret c => ret * 10 + c.toInt8.toInt64.toUInt64 - 48) 0

/-- `yfs_client::create`, with the clock at its two puts. -/
def create (s : ExtentServer) (parentID inum : UInt64) (name : List UInt8) (now now' : UInt32) :
    ExtentServer × Status :=
  let dirContent := s.get parentID
  if dirContent.1 ≠ .ok then (s, .ioerr)
  else
    let r := if isfile inum then s.put inum [] now else (s, .ok)
    if r.2 ≠ .ok then (r.1, .ioerr)
    else
      let c := if dirContent.2 ≠ [] then dirContent.2 ++ [colon] else dirContent.2
      let r' := r.1.put parentID (c ++ name ++ [colon] ++ filename inum) now'
      if r'.2 ≠ .ok then (r'.1, .ioerr) else (r'.1, .ok)

/-- The loop of `getDirContent`: `begin` and `end` at its end, `tempName`
and the pairs pushed so far. -/
structure Listing where
  first : Int32
  last : Int32
  tempName : List UInt8
  pairs : List (List UInt8 × UInt64)

/-- The loop, with `cycleTime` before the iteration. An exception is
`none`. -/
def listLoop (content : List UInt8) : ℕ → ℕ → Listing → Option Listing
  | 0, _, _ => none
  | fuel + 1, cycleTime, l =>
    if toSize l.last < content.length then
      match stringFind content [colon] (toSize l.first) with
      | none => some l
      | some pos =>
        let last := Int32.ofNat pos
        (stringSubstr content (toSize l.first) (toSize (last - l.first))).bind fun field =>
          let l' : Listing :=
            if (cycleTime + 1) % 2 = 1 then { l with tempName := field }
            else { l with pairs := l.pairs ++ [(l.tempName, stringToid field)] }
          listLoop content fuel (cycleTime + 1) { l' with first := last + 1, last := last }
    else some l

/-- `yfs_client::getDirContent`: the status, and the pairs pushed. Each
iteration finds another `':'`, so there is one more of them than bytes at
most. -/
def getDirContent (s : ExtentServer) (inum : UInt64) :
    Option (Status × List (List UInt8 × UInt64)) :=
  let content := s.get inum
  if content.1 ≠ .ok then some (.ioerr, [])
  else if stringFind content.2 [colon] 0 = none then some (.ok, [])
  else
    (listLoop content.2 (content.2.length + 1) 0 ⟨0, 0, [], []⟩).bind fun l =>
      (stringSubstr content.2 (toSize l.first) (toSize l.last)).map fun field =>
        (.ok, l.pairs ++ [(l.tempName, stringToid field)])

/-- `yfs_client::ilookup`. `finum` is what the variable of `n2i` holds
before it is assigned to. -/
def ilookup (s : ExtentServer) (finum parentID : UInt64) (name : List UInt8) : Option UInt64 :=
  let dirContent := s.get parentID
  if dirContent.1 ≠ .ok then some 0
  else
    let content := dirContent.2 ++ [colon]
    let name := name ++ [colon]
    match stringFind content name 0 with
    | none => some 0
    | some pos =>
      let head := pos + name.length
      -- `std::string::npos` is as good as the length of the string
      let tail := (stringFind content [colon] head).getD content.length
      (stringSubstr content head (tail - head)).map (n2i finum)

end YfsClient

/-- The search from the end of a part of a string. -/
theorem stringFind_append (pre l pat : List UInt8) :
    stringFind (pre ++ l) pat pre.length = (find pat l).map (· + pre.length) := by
  rw [stringFind, if_neg (by rw [List.length_append]; omega), List.drop_left]

theorem stringSubstr_append (pre l : List UInt8) (n : ℕ) :
    stringSubstr (pre ++ l) pre.length n = some (l.take n) := by
  rw [stringSubstr, if_neg (by rw [List.length_append]; omega), List.drop_left]

/-! ## Ids as text -/

theorem colon_not_mem_filename (inum : UInt64) : colon ∉ YfsClient.filename inum := by
  intro h
  have := isDigit_of_mem_decimal h
  revert this
  decide

theorem toUInt64_digit {c : UInt8} (h : c.toNat < 128) :
    c.toInt8.toInt64.toUInt64 = UInt64.ofNat c.toNat := by
  have hint : c.toInt8.toInt64.toInt = c.toNat := by
    rw [Int8.toInt_toInt64]
    exact BitVec.toInt_eq_toNat_of_lt (by change 2 * c.toNat < 2 ^ 8; omega)
  have hpos : 0 ≤ c.toInt8.toInt64 := by
    rw [Int64.le_iff_toInt_le, hint]
    exact Int.natCast_nonneg _
  refine UInt64.toNat_inj.1 ?_
  rw [Int64.toNat_toUInt64_of_le hpos, Int64.toNatClampNeg, hint, Int.toNat_natCast]
  exact (UInt64.toNat_ofNat_of_lt (by change c.toNat < 2 ^ 64; omega)).symm

/-- On digits `stringToid` computes the number modulo `2 ^ 64`. -/
theorem stringToid_eq {l : List UInt8} (hl : ∀ c ∈ l, isDigit c = true) :
    YfsClient.stringToid l = UInt64.ofNat (ofDecimal l) := by
  have hfold : ∀ v : ℕ,
      l.foldl (fun ret c => ret * 10 + c.toInt8.toInt64.toUInt64 - 48) (UInt64.ofNat v) =
        UInt64.ofNat (l.foldl (fun v c => 10 * v + (c.toNat - 48)) v) := by
    induction l with
    | nil => exact fun v => rfl
    | cons c l ih =>
      intro v
      obtain ⟨hlo, hhi⟩ := of_decide_eq_true (hl c List.mem_cons_self)
      have hstep : UInt64.ofNat v * 10 + c.toInt8.toInt64.toUInt64 - 48 =
          UInt64.ofNat (10 * v + (c.toNat - 48)) := by
        rw [toUInt64_digit (by omega), ← Nat.add_sub_assoc hlo, UInt64.ofNat_sub (by omega),
          UInt64.ofNat_add, UInt64.ofNat_mul, UInt64.mul_comm]
        rfl
      rw [List.foldl_cons, List.foldl_cons, hstep]
      exact ih (fun d hd => hl d (List.mem_cons_of_mem c hd)) _
  exact hfold 0

theorem stringToid_filename (inum : UInt64) :
    YfsClient.stringToid (YfsClient.filename inum) = inum := by
  rw [YfsClient.filename, stringToid_eq fun c hc => isDigit_of_mem_decimal hc, ofDecimal_decimal,
    UInt64.ofNat_toNat]

/-- `n2i` reads a numeral back. -/
theorem n2i_filename (finum inum : UInt64) :
    YfsClient.n2i finum (YfsClient.filename inum) = inum := by
  have hdigit : ∀ c ∈ YfsClient.filename inum, isDigit c = true :=
    fun c hc => isDigit_of_mem_decimal hc
  have hvalue : ofDecimal (YfsClient.filename inum) = inum.toNat := ofDecimal_decimal _
  obtain ⟨c, l, hcl⟩ := List.exists_cons_of_ne_nil (decimal_ne_nil inum.toNat)
  rw [← YfsClient.filename] at hcl
  obtain ⟨hlo, hhi⟩ := of_decide_eq_true (hdigit c (hcl ▸ List.mem_cons_self))
  have hspace : isSpace c = false := by
    have : c ≠ 32 := by
      rintro rfl
      exact absurd hlo (by decide)
    simp only [isSpace, beq_eq_false_iff_ne.2 this, Bool.false_or, decide_eq_false_iff_not]
    omega
  have hsign : ¬ (c = 45 ∨ c = 43) := by
    rintro (rfl | rfl)
    · exact absurd hlo (by decide)
    · exact absurd hlo (by decide)
  have hminus : c ≠ 45 := fun h => hsign (.inl h)
  have htake : (c :: l).takeWhile isDigit = c :: l :=
    List.takeWhile_eq_self_iff.2 fun d hd => hdigit d (hcl ▸ hd)
  have hlt := inum.toNat_lt
  rw [YfsClient.n2i, hcl, List.dropWhile_cons_of_neg (by simp [hspace])]
  dsimp only
  rw [if_neg hsign, htake, if_neg (List.cons_ne_nil c l), if_neg (by rw [← hcl, hvalue]; omega),
    if_neg hminus, ← hcl, hvalue, UInt64.ofNat_toNat]

/-! ## Entries -/

/-- An entry of a directory. -/
structure DirEntry where
  name : List UInt8
  inum : UInt64
deriving DecidableEq

/-- The fields of the text of a directory. -/
def fields (es : List DirEntry) : List (List UInt8) :=
  es.flatMap fun e => [e.name, YfsClient.filename e.inum]

theorem colon_not_mem_fields {es : List DirEntry} (h : ∀ e ∈ es, colon ∉ e.name) :
    ∀ f ∈ fields es, colon ∉ f := by
  intro f hf
  obtain ⟨e, he, hf⟩ := List.mem_flatMap.1 hf
  rcases List.mem_cons.1 hf with rfl | hf
  · exact h e he
  · rw [List.mem_singleton.1 hf]
    exact colon_not_mem_filename e.inum

/-- The text of a directory: `name:id:name:id`. -/
def dirString (es : List DirEntry) : List UInt8 := [colon].intercalate (fields es)

theorem dirString_concat (es : List DirEntry) (e : DirEntry) :
    dirString (es ++ [e]) =
      terminated colon (fields es) ++ (e.name ++ colon :: YfsClient.filename e.inum) := by
  have hf : fields (es ++ [e]) = (fields es ++ [e.name]) ++ [YfsClient.filename e.inum] := by
    simp [fields]
  rw [dirString, hf, intercalate_concat, terminated_append, terminated_cons, terminated_nil]
  simp

theorem terminated_fields {es : List DirEntry} (h : es ≠ []) :
    terminated colon (fields es) = dirString es ++ [colon] := by
  obtain ⟨e, es, rfl⟩ := List.exists_cons_of_ne_nil h
  exact (intercalate_append colon _ _).symm

theorem dirString_ne_nil {es : List DirEntry} (h : es ≠ []) : dirString es ≠ [] := by
  rw [← List.dropLast_append_getLast h, dirString_concat]
  simp

/-! ## What is recorded -/

/-- The entries of a text that was cut at each `':'`. -/
def entriesOf : List (List UInt8) → List DirEntry
  | name :: id :: fs => ⟨name, YfsClient.stringToid id⟩ :: entriesOf fs
  | _ => []

/-- The entries recorded in the content of a directory. -/
def recorded (content : List UInt8) : List DirEntry := entriesOf (content.splitOn colon)

theorem entriesOf_fields (es : List DirEntry) : entriesOf (fields es) = es := by
  induction es with
  | nil => rfl
  | cons e es ih =>
    have hcons : fields (e :: es) = e.name :: YfsClient.filename e.inum :: fields es := rfl
    rw [hcons, entriesOf, ih, stringToid_filename]

/-- The text of entries records them. -/
theorem recorded_dirString {es : List DirEntry} (h : ∀ e ∈ es, colon ∉ e.name) :
    recorded (dirString es) = es := by
  cases es with
  | nil => rfl
  | cons e es =>
    rw [recorded, dirString, List.splitOn_intercalate, entriesOf_fields]
    · exact colon_not_mem_fields h
    · exact List.cons_ne_nil _ _

theorem colon_not_mem_of_entriesOf {fs : List (List UInt8)} (h : ∀ f ∈ fs, colon ∉ f) :
    ∀ e ∈ entriesOf fs, colon ∉ e.name := by
  fun_induction entriesOf fs with
  | case1 name id fs ih =>
    intro e he
    rcases List.mem_cons.1 he with rfl | he
    · exact h name List.mem_cons_self
    · exact ih (fun f hf => h f (List.mem_cons_of_mem _ (List.mem_cons_of_mem _ hf))) e he
  | case2 => exact fun e he => absurd he List.not_mem_nil

/-- No name is recorded with a `':'` in it. -/
theorem colon_not_mem_of_recorded {content : List UInt8} :
    ∀ e ∈ recorded content, colon ∉ e.name :=
  colon_not_mem_of_entriesOf fun _ hf => not_mem_of_mem_splitOn hf

/-! ## Creating entries -/

/-- A call of `create`: the entry, and the clock. -/
structure Creation extends DirEntry where
  now : UInt32
  now' : UInt32

/-- The next call succeeds. -/
def createStep (parentID : UInt64) (s : ExtentServer) (c : Creation) : Option ExtentServer :=
  let r := YfsClient.create s parentID c.inum c.name c.now c.now'
  if r.2 = .ok then some r.1 else none

/-- The directory exists and is empty. -/
def EmptyDir (parentID : UInt64) (s : ExtentServer) : Prop := s.get parentID = (.ok, [])

theorem ExtentServer.get_put_self {s : ExtentServer} {id : UInt64} {buf : List UInt8} (now : UInt32)
    (h : buf.length ≤ maxextent) : (s.put id buf now).1.get id = (.ok, buf) := by
  rw [ExtentServer.put, if_neg (by omega), ExtentServer.get]
  simp only [Function.update_self]

theorem ExtentServer.put_ok_iff {s : ExtentServer} {id : UInt64} {buf : List UInt8} {now : UInt32} :
    (s.put id buf now).2 = .ok ↔ buf.length ≤ maxextent := by
  rw [ExtentServer.put]
  split
  · rename_i h
    exact iff_of_false (by simp) (by omega)
  · rename_i h
    exact iff_of_true rfl (by omega)

/-- To look at the status of a `put` is to look at the length. -/
theorem ExtentServer.ite_put_ok {α : Type*} (s : ExtentServer) (id : UInt64) (buf : List UInt8)
    (now : UInt32) (a b : α) :
    (if (s.put id buf now).2 ≠ .ok then a else b) = if buf.length ≤ maxextent then b else a := by
  rw [ite_not]
  exact if_congr ExtentServer.put_ok_iff rfl rfl

/-- The text that `create` puts back, from the text it got. -/
def appended (content name : List UInt8) (inum : UInt64) : List UInt8 :=
  (if content ≠ [] then content ++ [colon] else content) ++ name ++ [colon] ++
    YfsClient.filename inum

theorem appended_dirString (es : List DirEntry) (e : DirEntry) :
    appended (dirString es) e.name e.inum = dirString (es ++ [e]) := by
  rw [dirString_concat, appended]
  by_cases h : es = []
  · subst h
    simp [dirString, fields]
  · rw [if_pos (dirString_ne_nil h), terminated_fields h]
    simp

/-- The extents after `create` has made the new one, if it does. -/
def made (s : ExtentServer) (inum : UInt64) (now : UInt32) : ExtentServer :=
  if YfsClient.isfile inum then (s.put inum [] now).1 else s

/-- **`create`**, where it gets the directory: it makes the new extent,
and puts the directory back with one more entry. -/
theorem create_eq {s : ExtentServer} {parentID inum : UInt64} {name content : List UInt8}
    {now now' : UInt32} (hget : s.get parentID = (.ok, content)) :
    YfsClient.create s parentID inum name now now' =
      (((made s inum now).put parentID (appended content name inum) now').1,
        if (appended content name inum).length ≤ maxextent then .ok else .ioerr) := by
  have hfile : (s.put inum [] now).2 = .ok := ExtentServer.put_ok_iff.2 (Nat.zero_le _)
  have hr : (if YfsClient.isfile inum then s.put inum [] now else (s, .ok)) =
      (made s inum now, .ok) := by
    rw [made]
    split
    · exact Prod.ext rfl hfile
    · rfl
  simp only [YfsClient.create, hget, hr, ne_eq, not_true_eq_false, if_false]
  refine (ExtentServer.ite_put_ok _ _ _ _ _ _).trans ?_
  change (if (appended content name inum).length ≤ maxextent then _ else _) = _
  split
  · rfl
  · rfl

/-- What a `create` that succeeds leaves in the directory ends with the
text of the id. -/
theorem get_of_create {s : ExtentServer} {parentID inum : UInt64} {name : List UInt8}
    {now now' : UInt32} (h : (YfsClient.create s parentID inum name now now').2 = .ok) :
    ∃ rest, (YfsClient.create s parentID inum name now now').1.get parentID =
      (.ok, rest ++ colon :: YfsClient.filename inum) := by
  rcases hget : s.get parentID with ⟨status, content⟩
  have hok : status = .ok := by
    by_contra hne
    simp only [YfsClient.create, hget, ne_eq, hne, not_false_eq_true, if_true] at h
    exact Status.noConfusion h
  subst hok
  rw [create_eq hget] at h ⊢
  have hfit : (appended content name inum).length ≤ maxextent := by
    by_contra hbig
    rw [if_neg hbig] at h
    exact Status.noConfusion h
  refine ⟨(if content ≠ [] then content ++ [colon] else content) ++ name, ?_⟩
  rw [ExtentServer.get_put_self now' hfit, appended, List.append_assoc, List.singleton_append]

/-- **Ids survive their text.** Both decoders give back the id of which
`filename` made the text, there is no `':'` in it, and so they agree on the
id that ends a directory after a `create`. -/
theorem inum_codec (inum finum : UInt64) :
    YfsClient.stringToid (YfsClient.filename inum) = inum ∧
      YfsClient.n2i finum (YfsClient.filename inum) = inum ∧
      colon ∉ YfsClient.filename inum ∧
      ∀ s parentID name now now', (YfsClient.create s parentID inum name now now').2 = .ok →
        ∃ rest id, (YfsClient.create s parentID inum name now now').1.get parentID =
            (.ok, rest ++ colon :: id) ∧
          colon ∉ id ∧ YfsClient.stringToid id = inum ∧ YfsClient.n2i finum id = inum := by
  have hid := stringToid_filename inum
  have hn2i := n2i_filename finum inum
  have hcolon := colon_not_mem_filename inum
  refine ⟨hid, hn2i, hcolon, fun s parentID name now now' h => ?_⟩
  obtain ⟨rest, hget⟩ := get_of_create h
  exact ⟨rest, YfsClient.filename inum, hget, hcolon, hid, hn2i⟩

/-- The largest id, created in the root directory. -/
theorem inum_codec_largest :
    (YfsClient.create (.new 0) 1 0xffffffffffffffff [97] 0 0).2 = .ok ∧
      ∃ rest id, (YfsClient.create (.new 0) 1 0xffffffffffffffff [97] 0 0).1.get 1 =
          (.ok, rest ++ colon :: id) ∧
        colon ∉ id ∧ YfsClient.stringToid id = 0xffffffffffffffff ∧
          YfsClient.n2i 0 id = 0xffffffffffffffff := by
  have hok : (YfsClient.create (.new 0) 1 0xffffffffffffffff [97] 0 0).2 = .ok := by decide
  exact ⟨hok, (inum_codec 0xffffffffffffffff 0).2.2.2 _ _ _ _ _ hok⟩

/-- **A run of `create`s** on an empty directory leaves the text of the
entries created. -/
theorem get_of_creates {parentID : UInt64} {s s' : ExtentServer} {cs : List Creation}
    (h0 : EmptyDir parentID s) (hexec : exec (createStep parentID) s cs = some s') :
    s'.get parentID = (.ok, dirString (cs.map Creation.toDirEntry)) ∧
      (dirString (cs.map Creation.toDirEntry)).length ≤ maxextent := by
  have hrun : ∀ (cs : List Creation) (es : List DirEntry) (s : ExtentServer),
      s.get parentID = (.ok, dirString es) → (dirString es).length ≤ maxextent →
      exec (createStep parentID) s cs = some s' →
      s'.get parentID = (.ok, dirString (es ++ cs.map Creation.toDirEntry)) ∧
        (dirString (es ++ cs.map Creation.toDirEntry)).length ≤ maxextent := by
    intro cs
    induction cs with
    | nil =>
      intro es s hget hlen hexec
      obtain rfl := Option.some.inj hexec
      rw [List.map_nil, List.append_nil]
      exact ⟨hget, hlen⟩
    | cons c cs ih =>
      intro es s hget hlen hexec
      obtain ⟨t, ht, hexec⟩ := exec_cons_eq_some.1 hexec
      rw [createStep, create_eq hget, appended_dirString es c.toDirEntry] at ht
      by_cases hfit : (dirString (es ++ [c.toDirEntry])).length ≤ maxextent
      · rw [if_pos hfit, if_pos rfl] at ht
        obtain rfl := Option.some.inj ht
        have := ih (es ++ [c.toDirEntry]) _ (ExtentServer.get_put_self c.now' hfit) hfit hexec
        rwa [List.append_assoc] at this
      · rw [if_neg hfit] at ht
        cases ht
  exact hrun cs [] s h0 (Nat.zero_le _) hexec

end Yfs
