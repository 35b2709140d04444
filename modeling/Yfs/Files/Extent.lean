import Yfs.Marshall.Types

/-!
# The extent server

`extent_server` of `extent_server.cc`: a map from ids to contents and
attributes. The clock is an input: `now` is what `time(NULL)` returns,
narrowed to the `unsigned int` it is stored in.
-/

namespace Yfs

/-- `extent_protocol::xxstatus`, which `yfs_client::xxstatus` repeats. -/
inductive Status where
  | ok
  | rpcerr
  | noent
  | ioerr
  | fbig
deriving DecidableEq

/-- `extent_protocol::maxextent`. -/
def maxextent : ℕ := 8192 * 1000

/-- `extentInfo`. -/
structure ExtentInfo where
  eAttr : Attr
  content : List UInt8
deriving DecidableEq

/-- `std::string::resize`: the new bytes are zero bytes. -/
def stringResize (s : List UInt8) (n : ℕ) : List UInt8 :=
  s.take n ++ List.replicate (n - s.length) 0

/-- The length is the one asked for. -/
theorem length_stringResize (l : List UInt8) (n : ℕ) : (stringResize l n).length = n := by
  rw [stringResize, List.length_append, List.length_take, List.length_replicate]
  omega

/-- Resizing to the length a string has does nothing. -/
theorem stringResize_length (l : List UInt8) : stringResize l l.length = l := by
  rw [stringResize, List.take_length, Nat.sub_self, List.replicate_zero, List.append_nil]

/-- `extent_server`. -/
structure ExtentServer where
  /-- `extents`. -/
  extents : UInt64 → Option ExtentInfo

namespace ExtentServer

/-- The constructor: the root directory, empty. -/
def new (now : UInt32) : ExtentServer :=
  ⟨fun id => if id = 1 then some ⟨⟨now, now, now, 0⟩, []⟩ else none⟩

/-- `extent_server::put`. A new extent and an old one end up the same. -/
def put (s : ExtentServer) (id : UInt64) (buf : List UInt8) (now : UInt32) :
    ExtentServer × Status :=
  if buf.length > maxextent then (s, .fbig)
  else
    let e : ExtentInfo := ⟨⟨now, now, now, UInt32.ofNat buf.length⟩, buf⟩
    (⟨Function.update s.extents id (some e)⟩, .ok)

/-- `extent_server::get`. The string is the reply, empty where nothing
was assigned to it. -/
def get (s : ExtentServer) (id : UInt64) : Status × List UInt8 :=
  match s.extents id with
  | none => (.noent, [])
  | some e => (.ok, e.content)

/-- `extent_server::getattr`. Where nothing is assigned to the reply it
stays `a`, what it was. -/
def getattr (s : ExtentServer) (id : UInt64) (a : Attr) : Status × Attr :=
  match s.extents id with
  | none => (.noent, a)
  | some e => (.ok, e.eAttr)

/-- `extent_server::setattr`. -/
def setattr (s : ExtentServer) (id : UInt64) (a : Attr) (now : UInt32) :
    ExtentServer × Status :=
  match s.extents id with
  | none => (s, .noent)
  | some e =>
    if a.size = e.eAttr.size then
      (⟨Function.update s.extents id (some { e with eAttr := { e.eAttr with atime := now } })⟩, .ok)
    else
      let e' : ExtentInfo := ⟨⟨now, now, now, a.size⟩, stringResize e.content a.size.toNat⟩
      (⟨Function.update s.extents id (some e')⟩, .ok)

/-- `extent_server::remove`. -/
def remove (s : ExtentServer) (_ : UInt64) : ExtentServer × Status := (s, .ioerr)

/-- The contents, of the extents there are. -/
def contents (s : ExtentServer) (id : UInt64) : Option (List UInt8) :=
  (s.extents id).map ExtentInfo.content

/-- In the beginning there is the root, and it is empty. -/
theorem extents_new {now : UInt32} {id : UInt64} {e : ExtentInfo}
    (h : (new now).extents id = some e) : e = ⟨⟨now, now, now, 0⟩, []⟩ := by
  simp only [new] at h
  split at h
  · exact (Option.some.inj h).symm
  · cases h

/-- What holds of every extent, and of the one that an extent is replaced
by, holds of every extent then. -/
theorem forall_update {s : ExtentServer} {P : UInt64 → ExtentInfo → Prop} {id : UInt64}
    {e : ExtentInfo} (h : ∀ id e, s.extents id = some e → P id e) (he : P id e) :
    ∀ id' e', Function.update s.extents id (some e) id' = some e' → P id' e' := by
  intro id' e' he'
  by_cases hid : id' = id
  · subst hid
    rw [Function.update_self, Option.some.injEq] at he'
    exact he' ▸ he
  · rw [Function.update_of_ne hid] at he'
    exact h id' e' he'

/-- `get` finds what there is. -/
theorem get_fst_ok_iff {s : ExtentServer} {id : UInt64} :
    (s.get id).1 = .ok ↔ (s.extents id).isSome := by
  rw [get]
  cases s.extents id with
  | none => simp
  | some e => simp

theorem isSome_contents {s : ExtentServer} {id : UInt64} :
    (s.contents id).isSome ↔ (s.extents id).isSome := by
  rw [contents, Option.isSome_map]

/-- It returns the content. -/
theorem contents_of_get {s : ExtentServer} {id : UInt64} (h : (s.get id).1 = .ok) :
    s.contents id = some (s.get id).2 := by
  rw [get] at h ⊢
  rw [contents]
  cases he : s.extents id with
  | none =>
    rw [he] at h
    cases h
  | some e => rfl

/-- The contents after a change of one extent. -/
theorem contents_update (s : ExtentServer) (id : UInt64) (e : ExtentInfo) :
    (⟨Function.update s.extents id (some e)⟩ : ExtentServer).contents =
      Function.update s.contents id (some e.content) := by
  funext id'
  show (Function.update s.extents id (some e) id').map ExtentInfo.content = _
  by_cases hid : id' = id
  · subst hid
    rw [Function.update_self, Function.update_self, Option.map_some]
  · rw [Function.update_of_ne hid, Function.update_of_ne hid, contents]

/-- A `put` replaces a content, or is too long. -/
theorem contents_put (s : ExtentServer) (id : UInt64) (buf : List UInt8) (now : UInt32) :
    (s.put id buf now).1.contents =
      if buf.length ≤ maxextent then Function.update s.contents id (some buf) else s.contents := by
  rw [put]
  by_cases hlen : buf.length ≤ maxextent
  · rw [if_neg (by omega), if_pos hlen]
    exact contents_update s id _
  · rw [if_pos (by omega), if_neg hlen]

theorem get_eq_ok_iff {s : ExtentServer} {id : UInt64} {content : List UInt8} :
    s.get id = (.ok, content) ↔ ∃ e, s.extents id = some e ∧ e.content = content := by
  rw [get]
  cases s.extents id with
  | none => simp
  | some e => simp

theorem get_eq_of_contents {s : ExtentServer} {id : UInt64} {content : List UInt8}
    (h : s.contents id = some content) : s.get id = (.ok, content) := by
  obtain ⟨e, he, hcontent⟩ := Option.map_eq_some_iff.1 h
  exact get_eq_ok_iff.2 ⟨e, he, hcontent⟩

end ExtentServer

end Yfs
