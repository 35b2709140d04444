import Mathlib.Data.Option.Basic
import Yfs.Files.Directory

/-!
# Listing a directory

`getDirContent` cuts the text of a directory at each `':'` and takes the
fields for names and ids by turns. The last id has no `':'` after it; it
is cut out by `content.substr(begin, end)`, where `end` is the position of
the last `':'` and not a length. `listed_iff` says when that is enough:
when the last id has no more digits than there are bytes in front of that
`':'`.
-/

namespace Yfs

open Common

variable {pre f rest tempName : List UInt8} {pairs : List (List UInt8 × UInt64)}
variable {fuel cycleTime last : ℕ}

/-! ## The loop -/

/-- Between iterations, `begin` is the end of what was cut off. -/
def listingAt (pre : List UInt8) (last : ℕ) (tempName : List UInt8)
    (pairs : List (List UInt8 × UInt64)) : YfsClient.Listing :=
  ⟨Int32.ofNat pre.length, Int32.ofNat last, tempName, pairs⟩

/-- The loop takes one field that has a `':'` after it. -/
theorem listLoop_field_of_lt (hlen : (pre ++ f).length < maxextent) (hf : colon ∉ f)
    (hmax : last ≤ maxextent) (hlast : last < (pre ++ (f ++ colon :: rest)).length) :
    YfsClient.listLoop (pre ++ (f ++ colon :: rest)) (fuel + 1) cycleTime
        (listingAt pre last tempName pairs) =
      YfsClient.listLoop (pre ++ (f ++ colon :: rest)) fuel (cycleTime + 1)
        (listingAt (pre ++ f ++ [colon]) (pre ++ f).length
          (if (cycleTime + 1) % 2 = 1 then f else tempName)
          (if (cycleTime + 1) % 2 = 1 then pairs
            else pairs ++ [(tempName, YfsClient.stringToid f)])) := by
  have hsum : pre.length + f.length < maxextent := by
    rwa [List.length_append] at hlen
  have hgo : toSize (Int32.ofNat last) < (pre ++ (f ++ colon :: rest)).length := by
    rwa [toSize_ofNat hmax]
  have hsize : toSize (Int32.ofNat pre.length) = pre.length := toSize_ofNat (by omega)
  have hfound : stringFind (pre ++ (f ++ colon :: rest)) [colon] pre.length =
      some (pre ++ f).length := by
    rw [stringFind_append, find_sep rest hf, Option.map_some, List.length_append, Nat.add_comm]
  have hdiff : toSize (Int32.ofNat (pre ++ f).length - Int32.ofNat pre.length) = f.length := by
    rw [List.length_append, Int32.ofNat_add, Int32.add_comm, Int32.add_sub_cancel]
    exact toSize_ofNat (by omega)
  have hfield : stringSubstr (pre ++ (f ++ colon :: rest)) pre.length f.length = some f := by
    rw [stringSubstr_append, List.take_left]
  have hnext : Int32.ofNat (pre ++ f).length + 1 = Int32.ofNat (pre ++ f ++ [colon]).length := by
    simp only [List.length_append, List.length_singleton]
    exact (Int32.ofNat_add _ 1).symm
  simp only [YfsClient.listLoop, listingAt, if_pos hgo, hsize, hfound, hdiff, hfield,
    Option.bind_some, hnext]
  split
  · rfl
  · rfl

/-- The same, in a text that was put. -/
theorem listLoop_field (hlen : (pre ++ (f ++ colon :: rest)).length ≤ maxextent) (hf : colon ∉ f)
    (hlast : last < (pre ++ (f ++ colon :: rest)).length) :
    YfsClient.listLoop (pre ++ (f ++ colon :: rest)) (fuel + 1) cycleTime
        (listingAt pre last tempName pairs) =
      YfsClient.listLoop (pre ++ (f ++ colon :: rest)) fuel (cycleTime + 1)
        (listingAt (pre ++ f ++ [colon]) (pre ++ f).length
          (if (cycleTime + 1) % 2 = 1 then f else tempName)
          (if (cycleTime + 1) % 2 = 1 then pairs
            else pairs ++ [(tempName, YfsClient.stringToid f)])) := by
  refine listLoop_field_of_lt ?_ hf (by omega) hlast
  rw [← List.append_assoc, List.length_append, List.length_cons] at hlen
  omega

/-- The loop ends where no `':'` is left. -/
theorem listLoop_done (hlen : pre.length ≤ maxextent) (hf : colon ∉ f) :
    YfsClient.listLoop (pre ++ f) (fuel + 1) cycleTime (listingAt pre last tempName pairs) =
      some (listingAt pre last tempName pairs) := by
  have hsize : toSize (Int32.ofNat pre.length) = pre.length := toSize_ofNat hlen
  have hnone : stringFind (pre ++ f) [colon] pre.length = none := by
    rw [stringFind_append, find_sep_eq_none.2 hf, Option.map_none]
  simp only [YfsClient.listLoop, listingAt, hsize, hnone, ite_self]

/-- What a listing shows of an entry. -/
def DirEntry.pair (e : DirEntry) : List UInt8 × UInt64 := (e.name, e.inum)

/-- **The loop**, over the entries: all but the last end up as pairs, and
of the last one the name is kept. -/
theorem listLoop_entries {es : List DirEntry} {e : DirEntry}
    (hname : ∀ d ∈ es ++ [e], colon ∉ d.name) (hcycle : cycleTime % 2 = 0)
    (hlen : (pre ++ dirString (es ++ [e])).length ≤ maxextent)
    (hlast : last < (pre ++ dirString (es ++ [e])).length) (hfuel : 2 * es.length + 2 ≤ fuel) :
    YfsClient.listLoop (pre ++ dirString (es ++ [e])) fuel cycleTime
        (listingAt pre last tempName pairs) =
      some (listingAt (pre ++ terminated colon (fields es) ++ e.name ++ [colon])
        (pre ++ terminated colon (fields es) ++ e.name).length e.name
        (pairs ++ es.map DirEntry.pair)) := by
  obtain ⟨fuel, rfl⟩ := Nat.exists_eq_add_of_le' (show 2 ≤ fuel by omega)
  induction es generalizing pre last tempName pairs fuel cycleTime with
  | nil =>
    have he := hname e (List.mem_append_right _ List.mem_cons_self)
    have htext : dirString ([] ++ [e]) = e.name ++ colon :: YfsClient.filename e.inum :=
      dirString_concat [] e
    have hshift : pre ++ (e.name ++ colon :: YfsClient.filename e.inum) =
        (pre ++ e.name ++ [colon]) ++ YfsClient.filename e.inum := by simp
    rw [htext] at hlen hlast ⊢
    rw [listLoop_field hlen he hlast, if_pos (by omega), if_pos (by omega)]
    rw [hshift] at hlen ⊢
    rw [List.length_append] at hlen
    rw [listLoop_done (by omega) (colon_not_mem_filename e.inum)]
    simp [fields]
  | cons d es ih =>
    have hd := hname d (List.mem_append_left _ List.mem_cons_self)
    have htext : dirString (d :: es ++ [e]) =
        d.name ++ colon :: (YfsClient.filename d.inum ++ colon :: dirString (es ++ [e])) := by
      rw [dirString_concat, dirString_concat]
      simp [fields]
    have hshift : pre ++ (d.name ++ colon :: (YfsClient.filename d.inum ++
          colon :: dirString (es ++ [e]))) =
        (pre ++ d.name ++ [colon]) ++ (YfsClient.filename d.inum ++
          colon :: dirString (es ++ [e])) := by simp
    have hshift' : (pre ++ d.name ++ [colon]) ++ (YfsClient.filename d.inum ++
          colon :: dirString (es ++ [e])) =
        (pre ++ d.name ++ [colon] ++ YfsClient.filename d.inum ++ [colon]) ++
          dirString (es ++ [e]) := by simp
    rw [List.length_cons] at hfuel
    obtain ⟨fuel, rfl⟩ := Nat.exists_eq_add_of_le' (show 2 ≤ fuel by omega)
    -- an iteration for the name, and one for the id
    rw [htext] at hlen hlast ⊢
    rw [listLoop_field hlen hd hlast, if_pos (by omega), if_pos (by omega)]
    rw [hshift] at hlen ⊢
    rw [listLoop_field hlen (colon_not_mem_filename d.inum) (by simp), if_neg (by omega),
      if_neg (by omega), stringToid_filename]
    rw [hshift'] at hlen ⊢
    have hpos : 0 < (dirString (es ++ [e])).length :=
      List.length_pos_iff.2 (dirString_ne_nil (by simp))
    rw [ih (fun c hc => hname c (List.mem_cons_of_mem d hc)) (by omega) hlen
      (by simp only [List.length_append, List.length_cons]; omega) _ (by omega)]
    simp [fields, DirEntry.pair]

/-! ## Round trip -/

theorem length_terminated_fields (es : List DirEntry) :
    2 * es.length ≤ (terminated colon (fields es)).length := by
  induction es with
  | nil => exact Nat.zero_le _
  | cons e es ih =>
    have hcons : fields (e :: es) = e.name :: YfsClient.filename e.inum :: fields es := rfl
    rw [hcons, terminated_cons, terminated_cons]
    simp only [List.length_append, List.length_cons]
    omega

/-- **What is listed**: all entries, and of the last id as many digits as
there are bytes in front of the last `':'`. -/
theorem getDirContent_concat {s : ExtentServer} {parentID : UInt64} {es : List DirEntry}
    {e : DirEntry} (hget : s.get parentID = (.ok, dirString (es ++ [e])))
    (hlen : (dirString (es ++ [e])).length ≤ maxextent)
    (hname : ∀ d ∈ es ++ [e], colon ∉ d.name) :
    YfsClient.getDirContent s parentID = some (.ok, es.map DirEntry.pair ++
      [(e.name, YfsClient.stringToid ((YfsClient.filename e.inum).take
        (terminated colon (fields es) ++ e.name).length))]) := by
  have hshift : dirString (es ++ [e]) =
      (terminated colon (fields es) ++ e.name ++ [colon]) ++ YfsClient.filename e.inum := by
    rw [dirString_concat]
    simp
  have hcolon : stringFind (dirString (es ++ [e])) [colon] 0 ≠ none := by
    rw [stringFind_zero, Ne, find_sep_eq_none, not_not, hshift]
    simp
  have hfuel : 2 * es.length + 2 ≤ (dirString (es ++ [e])).length + 1 := by
    have := length_terminated_fields es
    rw [hshift]
    simp only [List.length_append, List.length_singleton]
    omega
  have hloop : YfsClient.listLoop (dirString (es ++ [e])) ((dirString (es ++ [e])).length + 1) 0
      (listingAt [] 0 [] []) = _ :=
    listLoop_entries hname (Nat.zero_mod 2) hlen
      (List.length_pos_iff.2 (dirString_ne_nil (by simp))) hfuel
  rw [List.nil_append, List.nil_append] at hloop
  generalize terminated colon (fields es) ++ e.name = pre at hshift hloop ⊢
  have hsum : pre.length + 1 + (YfsClient.filename e.inum).length ≤ maxextent := by
    rw [hshift] at hlen
    simpa only [List.length_append, List.length_singleton] using hlen
  have hsize : toSize (Int32.ofNat pre.length) = pre.length := toSize_ofNat (by omega)
  have hsize' : toSize (Int32.ofNat (pre ++ [colon]).length) = (pre ++ [colon]).length :=
    toSize_ofNat (by rw [List.length_append, List.length_singleton]; omega)
  have hlastId : stringSubstr (dirString (es ++ [e])) (pre ++ [colon]).length pre.length =
      some ((YfsClient.filename e.inum).take pre.length) := by
    rw [hshift, stringSubstr_append]
  have hstart : (⟨0, 0, [], []⟩ : YfsClient.Listing) = listingAt [] 0 [] [] := rfl
  rw [YfsClient.getDirContent, hget]
  dsimp only
  rw [if_neg (not_not.2 rfl), if_neg hcolon, hstart, hloop, Option.bind_some, listingAt]
  dsimp only
  rw [hsize, hsize', hlastId, Option.map_some]

/-- The last id has no more digits than there are bytes in front of the
`':'` before it. -/
def LastIdFits (es : List DirEntry) : Prop :=
  ∀ e ∈ es.getLast?, (YfsClient.filename e.inum).length ≤
    (terminated colon (fields es.dropLast) ++ e.name).length

instance (es : List DirEntry) : Decidable (LastIdFits es) :=
  inferInstanceAs (Decidable (∀ e ∈ es.getLast?, _))

theorem lastIdFits_concat {es : List DirEntry} {e : DirEntry} :
    LastIdFits (es ++ [e]) ↔ (YfsClient.filename e.inum).length ≤
      (terminated colon (fields es) ++ e.name).length := by
  simp [LastIdFits]

/-- A numeral that is cut off, but not to nothing, is read as another
number. -/
theorem stringToid_take_eq_iff {inum : UInt64} {k : ℕ} (hk : 0 < k) :
    YfsClient.stringToid ((YfsClient.filename inum).take k) = inum ↔
      (YfsClient.filename inum).length ≤ k := by
  constructor
  · intro h
    by_contra hlt
    have hless : ofDecimal ((YfsClient.filename inum).take k) < inum.toNat :=
      ofDecimal_take_lt hk (Nat.lt_of_not_le hlt)
    have hdigit : ∀ c ∈ (YfsClient.filename inum).take k, isDigit c = true :=
      fun c hc => isDigit_of_mem_decimal (List.mem_of_mem_take hc)
    have hbound := inum.toNat_lt
    rw [stringToid_eq hdigit,
      ← UInt64.toNat_inj, UInt64.toNat_ofNat_of_lt' (by change _ < 2 ^ 64; omega)] at h
    omega
  · intro h
    rw [List.take_of_length_le h, stringToid_filename]

/-- **A listing shows what was created, exactly where the last id fits.**
After any `create`s on an empty directory, with names that are not empty
and have no `':'`, `getDirContent` returns the names and ids in the order
they were created if and only if the last id has no more digits than
there are bytes in front of the `':'` before it. -/
theorem listed_iff {parentID : UInt64} {s s' : ExtentServer} {cs : List Creation}
    (h0 : EmptyDir parentID s) (hname : ∀ c ∈ cs, c.name ≠ [] ∧ colon ∉ c.name)
    (hexec : exec (createStep parentID) s cs = some s') :
    YfsClient.getDirContent s' parentID = some (.ok, cs.map fun c => (c.name, c.inum)) ↔
      LastIdFits (cs.map Creation.toDirEntry) := by
  obtain ⟨hget, hlen⟩ := get_of_creates h0 hexec
  have hpairs : cs.map (fun c => (c.name, c.inum)) =
      (cs.map Creation.toDirEntry).map DirEntry.pair := by
    rw [List.map_map]
    rfl
  have hname' : ∀ e ∈ cs.map Creation.toDirEntry, e.name ≠ [] ∧ colon ∉ e.name :=
    List.forall_mem_map.2 hname
  rw [hpairs]
  generalize cs.map Creation.toDirEntry = es at hget hlen hname'
  rcases List.eq_nil_or_concat' es with rfl | ⟨es, e, rfl⟩
  · -- an empty directory has no `':'`, and no last id
    refine iff_of_true ?_ (by simp [LastIdFits])
    rw [YfsClient.getDirContent, hget]
    rfl
  · have hpos : 0 < (terminated colon (fields es) ++ e.name).length := by
      have := List.length_pos_iff.2 (hname' e (by simp)).1
      rw [List.length_append]
      omega
    rw [getDirContent_concat hget hlen fun d hd => (hname' d hd).2, List.map_append,
      List.map_singleton, lastIdFits_concat]
    rw [← stringToid_take_eq_iff hpos]
    simp [DirEntry.pair]

/-- Two files, with ids as `fuse.cc` makes them. -/
def twoFiles : List Creation :=
  [⟨⟨[97], 2147483653⟩, 1, 2⟩, ⟨⟨[98], 2147483654⟩, 3, 4⟩]

theorem listed_twoFiles : ∃ s', exec (createStep 1) (.new 0) twoFiles = some s' ∧
    YfsClient.getDirContent s' 1 = some (.ok, [([97], 2147483653), ([98], 2147483654)]) := by
  have h0 : EmptyDir 1 (.new 0) := rfl
  have hname : ∀ c ∈ twoFiles, c.name ≠ [] ∧ colon ∉ c.name := by decide
  exact ⟨_, rfl, (listed_iff h0 hname rfl).2 (by decide)⟩

/-- One file with a name shorter than its id is listed with another id. -/
theorem not_listed_one_file : EmptyDir 1 (.new 0) ∧ ∃ s',
    exec (createStep 1) (.new 0) [⟨⟨[97], 2147483653⟩, 1, 2⟩] = some s' ∧
    YfsClient.getDirContent s' 1 ≠ some (.ok, [([97], 2147483653)]) :=
  ⟨rfl, _, rfl, by decide⟩

end Yfs
