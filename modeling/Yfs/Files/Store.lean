import Yfs.Common.Run
import Yfs.Files.Extent
import Yfs.Marshall.RoundTrip

/-!
# The extent server as a store

A run of `extent_server` is a sequence of requests, each answered before
the next; `history` is what was asked and answered so far. The size of an
extent is kept beside its content and updated in three places; that the
two agree (`Sized`) is what `setattr` relies on. On it rest the two
results of the file: the server is a map from ids to byte strings
(`store_refines`), and which requests make an extent that no client can
fetch (`fetchable_iff`).
-/

namespace Yfs

open Common

/-- A request to the extent server. `now` is the clock when it is served,
and `a₀` what the variable for the reply holds before. -/
inductive ExtentReq where
  | put (id : UInt64) (buf : List UInt8) (now : UInt32)
  | get (id : UInt64)
  | getattr (id : UInt64) (a₀ : Attr)
  | setattr (id : UInt64) (a : Attr) (now : UInt32)
  | remove (id : UInt64)

/-- The extent a request is about. -/
def ExtentReq.id : ExtentReq → UInt64
  | .put id _ _ => id
  | .get id => id
  | .getattr id _ => id
  | .setattr id _ _ => id
  | .remove id => id

/-- What the server answers. -/
structure ExtentReply where
  status : Status
  /-- What a `get` assigned to its reply. -/
  content : List UInt8
  /-- What a `getattr` assigned to its reply. -/
  attr : Attr
deriving DecidableEq

/-- The server serves a request. -/
def ExtentServer.serve (s : ExtentServer) : ExtentReq → ExtentServer × ExtentReply
  | .put id buf now =>
    let r := s.put id buf now
    (r.1, ⟨r.2, [], ⟨0, 0, 0, 0⟩⟩)
  | .get id =>
    let r := s.get id
    (s, ⟨r.1, r.2, ⟨0, 0, 0, 0⟩⟩)
  | .getattr id a₀ =>
    let r := s.getattr id a₀
    (s, ⟨r.1, [], r.2⟩)
  | .setattr id a now =>
    let r := s.setattr id a now
    (r.1, ⟨r.2, [], ⟨0, 0, 0, 0⟩⟩)
  | .remove id =>
    let r := s.remove id
    (r.1, ⟨r.2, [], ⟨0, 0, 0, 0⟩⟩)

/-- The server, and what it was asked and answered, newest first. -/
structure Store where
  server : ExtentServer
  history : List (ExtentReq × Status)

/-- The server as the constructor leaves it. -/
def Store.new (now : UInt32) : Store := ⟨.new now, []⟩

/-- The next request is served. -/
def Store.step (p : Store) (r : ExtentReq) : Option Store :=
  let x := p.server.serve r
  some ⟨x.1, (r, x.2.status) :: p.history⟩

/-- The states of the server that requests lead to. -/
def ExtentServer.Reachable (s : ExtentServer) : Prop :=
  ∃ now reqs p, exec Store.step (.new now) reqs = some p ∧ p.server = s

/-! ## Sizes -/

/-- The size kept with an extent is the length of its content. -/
def Sized (s : ExtentServer) : Prop :=
  ∀ id e, s.extents id = some e → e.eAttr.size.toNat = e.content.length

theorem sized_new (now : UInt32) : Sized (.new now) := by
  intro id e he
  rw [ExtentServer.extents_new he]
  rfl

/-- An extent is replaced by one whose size is right. -/
theorem Sized.update {s : ExtentServer} (h : Sized s) {id : UInt64} {e : ExtentInfo}
    (he : e.eAttr.size.toNat = e.content.length) :
    Sized ⟨Function.update s.extents id (some e)⟩ :=
  ExtentServer.forall_update h he

/-! ## What a request does -/

/-- What a request does to the server, with the status it returns. -/
inductive Effect (s : ExtentServer) : ExtentReq → Status → ExtentServer → Prop
  /-- It fails. -/
  | fails (r : ExtentReq) {st : Status} (hst : st ≠ .ok) : Effect s r st s
  | get (id : UInt64) : Effect s (.get id) .ok s
  | getattr (id : UInt64) (a₀ : Attr) : Effect s (.getattr id a₀) .ok s
  | put (id : UInt64) (buf : List UInt8) (now : UInt32) (hlen : buf.length ≤ maxextent) :
      Effect s (.put id buf now) .ok
        ⟨Function.update s.extents id
          (some ⟨⟨now, now, now, UInt32.ofNat buf.length⟩, buf⟩)⟩
  /-- A `setattr` with the size the extent has. -/
  | touch (id : UInt64) (a : Attr) (now : UInt32) (e : ExtentInfo) (he : s.extents id = some e)
      (hsize : a.size = e.eAttr.size) :
      Effect s (.setattr id a now) .ok
        ⟨Function.update s.extents id
          (some { e with eAttr := { e.eAttr with atime := now } })⟩
  | resize (id : UInt64) (a : Attr) (now : UInt32) (e : ExtentInfo) (he : s.extents id = some e)
      (hsize : a.size ≠ e.eAttr.size) :
      Effect s (.setattr id a now) .ok
        ⟨Function.update s.extents id
          (some ⟨⟨now, now, now, a.size⟩, stringResize e.content a.size.toNat⟩)⟩

/-- What each request does, from the code of its handler. -/
theorem effect_serve (s : ExtentServer) (r : ExtentReq) :
    Effect s r (s.serve r).2.status (s.serve r).1 := by
  cases r with
  | put id buf now =>
    simp only [ExtentServer.serve, ExtentServer.put]
    split
    · exact .fails _ (by simp)
    · exact .put id buf now (by omega)
  | get id =>
    simp only [ExtentServer.serve, ExtentServer.get]
    split
    · exact .fails _ (by simp)
    · exact .get id
  | getattr id a₀ =>
    simp only [ExtentServer.serve, ExtentServer.getattr]
    split
    · exact .fails _ (by simp)
    · exact .getattr id a₀
  | setattr id a now =>
    simp only [ExtentServer.serve, ExtentServer.setattr]
    split
    · exact .fails _ (by simp)
    · rename_i e he
      split
      · rename_i hsize
        exact .touch id a now e he hsize
      · rename_i hsize
        exact .resize id a now e he hsize
  | remove id => exact .fails _ (by simp [ExtentServer.serve, ExtentServer.remove])

variable {s s' : ExtentServer} {r : ExtentReq} {st : Status}

/-- A request touches the extent it names and no other. -/
theorem Effect.extents_of_ne (h : Effect s r st s') {id : UInt64} (hid : id ≠ r.id) :
    s'.extents id = s.extents id := by
  cases h with
  | put => exact Function.update_of_ne hid _ _
  | touch => exact Function.update_of_ne hid _ _
  | resize => exact Function.update_of_ne hid _ _
  | _ => rfl

/-- A request that fails changes nothing. -/
theorem Effect.eq_of_ne_ok (h : Effect s r st s') (hst : st ≠ .ok) : s' = s := by
  cases h with
  | fails => rfl
  | _ => exact absurd rfl hst

/-- The size in the attributes is the length of the content. -/
theorem Effect.sized (h : Effect s r st s') (hs : Sized s) : Sized s' := by
  have hmax : maxextent < UInt32.size := by decide
  cases h with
  | put id buf now hlen => exact hs.update (UInt32.toNat_ofNat_of_lt (by omega))
  | touch id a now e he hsize => exact hs.update (hs id e he)
  | resize id a now e he hsize => exact hs.update (length_stringResize _ _).symm
  | _ => exact hs

/-! ## The map it is -/

/-- The content of the extent `id` by the last put and the changes of
size after it, newest first, those that succeeded. In the beginning there
is the root, which is empty. -/
def contentOf (id : UInt64) : List (ExtentReq × Status) → Option (List UInt8)
  | [] => if id = 1 then some [] else none
  | (.put id' buf _, .ok) :: h => if id' = id then some buf else contentOf id h
  | (.setattr id' a _, .ok) :: h =>
    if id' = id then (contentOf id h).map fun c => stringResize c a.size.toNat
    else contentOf id h
  | _ :: h => contentOf id h

/-- The server holds the contents that its history says. -/
structure Store.Refines (p : Store) : Prop where
  content : ∀ id, (p.server.extents id).map ExtentInfo.content = contentOf id p.history
  sized : Sized p.server

theorem Store.refines_new (now : UInt32) : (Store.new now).Refines where
  content id := by
    simp only [Store.new, ExtentServer.new, contentOf]
    split <;> rfl
  sized := sized_new now

theorem contentOf_of_ne_ok (id : UInt64) (r : ExtentReq) {st : Status} (hst : st ≠ .ok)
    (h : List (ExtentReq × Status)) : contentOf id ((r, st) :: h) = contentOf id h := by
  cases st with
  | ok => exact absurd rfl hst
  | _ => cases r <;> rfl

/-- The contents after the extent `id'` was replaced. -/
theorem content_update (s : ExtentServer) (id id' : UInt64) (e : ExtentInfo) :
    (Function.update s.extents id' (some e) id).map ExtentInfo.content =
      if id' = id then some e.content else (s.extents id).map ExtentInfo.content := by
  by_cases hid : id' = id
  · subst hid
    rw [if_pos rfl, Function.update_self, Option.map_some]
  · rw [if_neg hid, Function.update_of_ne (Ne.symm hid)]

/-- **One request** changes the contents as its entry in the history says. -/
theorem Effect.content (h : Effect s r st s') (hs : Sized s) {hist : List (ExtentReq × Status)}
    {id : UInt64} (hid : (s.extents id).map ExtentInfo.content = contentOf id hist) :
    (s'.extents id).map ExtentInfo.content = contentOf id ((r, st) :: hist) := by
  cases h with
  | fails r hst => exact hid.trans (contentOf_of_ne_ok id r hst hist).symm
  | get => exact hid
  | getattr => exact hid
  | put id' buf now hlen => rw [content_update, contentOf, hid]
  | touch id' a now e he hsize =>
    rw [content_update, contentOf, hid]
    by_cases hi : id' = id
    · subst hi
      -- the content has the size already
      have hlen : a.size.toNat = e.content.length := by rw [hsize, hs id' e he]
      rw [if_pos rfl, if_pos rfl, ← hid, he, hlen, Option.map_some, Option.map_some,
        stringResize_length]
    · rw [if_neg hi, if_neg hi]
  | resize id' a now e he hsize =>
    rw [content_update, contentOf, hid]
    by_cases hi : id' = id
    · subst hi
      rw [if_pos rfl, if_pos rfl, ← hid, he, Option.map_some, Option.map_some]
    · rw [if_neg hi, if_neg hi]

/-- One request keeps the extents what the history says. -/
theorem Store.Refines.step {p p' : Store} (h : p.Refines) (hs : p.step r = some p') :
    p'.Refines := by
  have he := effect_serve p.server r
  cases hs
  exact ⟨fun id => he.content h.sized (h.content id), he.sized h.sized⟩

/-- What requests keep holds of every state they lead to. -/
theorem ExtentServer.Reachable.invariant {Inv : ExtentServer → Prop} {s : ExtentServer}
    (h : s.Reachable) (hnew : ∀ now, Inv (.new now))
    (hstep : ∀ s r st s', Inv s → Effect s r st s' → Inv s') : Inv s := by
  obtain ⟨now, reqs, p, hp, rfl⟩ := h
  have hserved : ∀ (p : Store) r p', Inv p.server → p.step r = some p' → Inv p'.server := by
    intro p r p' hp hs
    cases hs
    exact hstep p.server r _ _ hp (effect_serve p.server r)
  exact exec_invariant hserved (hnew now) hp

theorem ExtentServer.Reachable.sized {s : ExtentServer} (h : s.Reachable) : Sized s :=
  h.invariant sized_new fun _ _ _ _ hs he => he.sized hs

/-- **The extent server is a map from ids to byte strings.** Every
sequence of requests is served, and after it: a `get` returns what the
last put and the changes of size after it say, or `NOENT`; a `getattr`
that succeeds reports the length of that; no request changes another
extent than its own; and one that fails changes nothing. -/
theorem store_refines (now : UInt32) (reqs : List ExtentReq) :
    ∃ p, exec Store.step (.new now) reqs = some p ∧
      (∀ id, p.server.get id =
        match contentOf id p.history with
        | some c => (.ok, c)
        | none => (.noent, [])) ∧
      (∀ id a₀, (p.server.getattr id a₀).1 = .ok → ∃ c, contentOf id p.history = some c ∧
        (p.server.getattr id a₀).2.size.toNat = c.length) ∧
      (∀ r id, id ≠ r.id → (p.server.serve r).1.extents id = p.server.extents id) ∧
      ∀ r, (p.server.serve r).2.status ≠ .ok → (p.server.serve r).1 = p.server := by
  obtain ⟨p, hp⟩ : ∃ p, exec Store.step (.new now) reqs = some p := by
    generalize Store.new now = p
    induction reqs generalizing p with
    | nil => exact ⟨p, rfl⟩
    | cons r reqs ih => exact ih _
  have h : p.Refines := exec_invariant (fun _ _ _ h hs => h.step hs) (Store.refines_new now) hp
  refine ⟨p, hp, fun id => ?_, fun id a₀ hok => ?_, fun r id hid => ?_, fun r hst => ?_⟩
  · rw [← h.content id, ExtentServer.get]
    cases p.server.extents id with
    | none => rfl
    | some e => rfl
  · rw [← h.content id]
    simp only [ExtentServer.getattr] at hok ⊢
    cases he : p.server.extents id with
    | none =>
      rw [he] at hok
      cases hok
    | some e => exact ⟨e.content, rfl, h.sized id e he⟩
  · exact (effect_serve p.server r).extents_of_ne hid
  · exact (effect_serve p.server r).eq_of_ne_ok hst

/-! ## What can be fetched -/

/-- The PDU of the reply to a `get`, as `dispatch` builds it from what
the handler returns. -/
def getReply (mem : ℕ → UInt8) (h : ReplyHeader) (s : ExtentServer) (id : UInt64) : List UInt8 :=
  (((Marshall.new mem).put (.basic .string) (s.get id).2).packReplyHeader h).str

/-- What a reply to `get` takes. -/
theorem length_getReply (mem : ℕ → UInt8) (h : ReplyHeader) (s : ExtentServer) (id : UInt64) :
    (getReply mem h s id).length = rpcHeaderSz + 4 + (s.get id).2.length := by
  have happ := Marshall.appends_put (Marshall.new mem) (.basic .string) (s.get id).2
  rw [getReply, Marshall.str, length_bytesAt, Marshall.packReplyHeader_ind, happ.ind,
    Marshall.new_ind, Ty.enc, Basic.enc, List.length_append, length_be32, Nat.add_assoc]

/-- Every extent is within the limit, and the reply to a `get` of it one
that `readpdu` accepts. -/
def Fetchable (p : Store) : Prop :=
  ∀ id e, p.server.extents id = some e → e.content.length ≤ maxextent ∧
    ∀ mem h, (getReply mem h p.server id).length ≤ maxPdu

/-- The request does not give an extent a size above the limit. -/
def SizeAllowed (p : Store) : ExtentReq → Prop
  | .setattr id a _ => (p.server.extents id).isSome → a.size.toNat ≤ maxextent
  | _ => True

/-- The invariant: every extent is within the limit, and its size right. -/
structure Limited (p : Store) : Prop where
  small : ∀ id e, p.server.extents id = some e → e.content.length ≤ maxextent
  sized : Sized p.server

theorem limited_new (now : UInt32) : Limited (.new now) where
  small id e he := by
    rw [ExtentServer.extents_new he]
    exact Nat.zero_le _
  sized := sized_new now

/-- What is within the limit fits into a PDU. -/
theorem Limited.fetchable {p : Store} (h : Limited p) : Fetchable p := by
  intro id e he
  have hmax : rpcHeaderSz + 4 + maxextent ≤ maxPdu := by decide
  have hlen := h.small id e he
  refine ⟨hlen, fun mem hd => ?_⟩
  rw [length_getReply, ExtentServer.get, he]
  dsimp only
  omega

theorem Limited.step {p p' : Store} (h : Limited p) (hr : SizeAllowed p r)
    (hs : p.step r = some p') : Limited p' := by
  have he := effect_serve p.server r
  cases hs
  refine ⟨?_, he.sized h.sized⟩
  dsimp only
  generalize (p.server.serve r).1 = s' at he ⊢
  generalize (p.server.serve r).2.status = st at he
  cases he with
  | put id buf now hlen => exact ExtentServer.forall_update h.small hlen
  | touch id a now e hext hsize => exact ExtentServer.forall_update h.small (h.small id e hext)
  | resize id a now e hext hsize =>
    refine ExtentServer.forall_update h.small ?_
    rw [length_stringResize]
    exact hr (by rw [hext]; rfl)
  | _ => exact h.small

/-- A size above the limit is not the size the extent has, so the content
gets it. -/
theorem Limited.sizeAllowed {p : Store} (h : Limited p)
    (hf : ∀ p', p.step r = some p' → Fetchable p') : SizeAllowed p r := by
  cases r with
  | setattr id a now =>
    intro hsome
    obtain ⟨e, he⟩ := Option.isSome_iff_exists.1 hsome
    have hlen := h.small id e he
    have hsized := h.sized id e he
    by_cases hsize : a.size = e.eAttr.size
    · rw [hsize, hsized]
      exact hlen
    · have hnew : (p.server.setattr id a now).1.extents id =
          some ⟨⟨now, now, now, a.size⟩, stringResize e.content a.size.toNat⟩ := by
        simp only [ExtentServer.setattr, he, if_neg hsize, Function.update_self]
      have hfetch := (hf _ rfl id _ hnew).1
      rw [length_stringResize] at hfetch
      exact hfetch
  | _ => trivial

/-- **Whatever is stored can be fetched, exactly where no `setattr` asks
for too much.** In a run every extent stays within the limit, and its
reply within what `readpdu` accepts, if and only if no `setattr` gives an
existing extent a size above `maxextent`. -/
theorem fetchable_iff (now : UInt32) (reqs : List ExtentReq) :
    Along Store.step Fetchable (.new now) reqs ↔ Steps Store.step SizeAllowed (.new now) reqs :=
  along_iff_steps (fun _ h => h.fetchable) (fun _ _ _ h hr hs => h.step hr hs)
    (fun _ _ h hf => h.sizeAllowed hf) (limited_new now)

/-- The root is given one byte more than the limit. -/
theorem not_fetchable_setattr :
    ¬ Along Store.step Fetchable (.new 0) [.setattr 1 ⟨0, 0, 0, 8192001⟩ 0] := by
  intro h
  have hfetch := h.2 _ rfl 1 ⟨⟨0, 0, 0, 8192001⟩, stringResize [] 8192001⟩ rfl
  rw [length_stringResize] at hfetch
  exact absurd hfetch.1 (by decide)

end Yfs
