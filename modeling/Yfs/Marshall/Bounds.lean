import Yfs.Marshall.Types

/-!
# Where extraction reads

Every `operator>>` is made of calls of `rawbyte` and `rawbytes`, so that
a relation between cursors that these two respect, and that composes,
holds across any extraction: `get_rel`. Both halves of the bounds result
are instances. The one way out of the buffer is the sum `_ind+n` of
`rawbytes`, taken modulo `2 ^ 32`: `inBuffer_iff_noWrap` says that
extraction stays inside the buffer exactly when no string length makes
it wrap around.
-/

namespace Yfs

open Common

namespace Unmarshall

/-! ## Relations that extraction respects -/

/-- A relation between cursors that composes and that the two readers
respect. -/
structure Respected (R : Unmarshall → Unmarshall → Prop) : Prop where
  refl : ∀ u, R u u
  trans : ∀ {u v w}, R u v → R v w → R u w
  byte : ∀ u, R u u.rawbyte.1
  /-- `rawbytes` is only called with `ok()`. -/
  range : ∀ u n, u.ok = true → R u (u.rawbytes [] n).1

section Rel

variable {R : Unmarshall → Unmarshall → Prop} (h : Respected R)

include h

theorem word_rel (u : Unmarshall) : R u u.word.1 := by
  rw [word_fst]
  exact h.trans (h.trans (h.trans (h.byte u) (h.byte _)) (h.byte _)) (h.byte _)

/-- A string is a length and a run of bytes. -/
theorem getString_rel (u : Unmarshall) : R u u.getString.1 := by
  unfold getString getUint
  dsimp only
  split
  · rename_i hok
    exact h.trans (word_rel h u) (h.range _ _ hok)
  · dsimp only
    exact word_rel h u

theorem getBasic_rel (b : Basic) (u : Unmarshall) : R u (u.getBasic b).1 := by
  cases b with
  | uchar => exact h.byte u
  | char => exact h.byte u
  | ushort => exact h.trans (h.byte u) (h.byte _)
  | short => exact h.trans (h.byte u) (h.byte _)
  | uint => exact word_rel h u
  | int =>
    simp only [getBasic, getInt]
    exact word_rel h u
  | ulonglong =>
    simp only [getBasic, getUlonglong, getUint]
    exact h.trans (word_rel h u) (word_rel h u.word.1)
  | string => exact getString_rel h u

/-- An element after the other. -/
theorem getMany_rel {α : Type} {g : Unmarshall → Unmarshall × α} (hg : ∀ u, R u (g u).1) (n : ℕ)
    (u : Unmarshall) : R u (getMany g n u).1 := by
  induction n generalizing u with
  | zero => exact h.refl u
  | succ n ih => exact h.trans (hg u) (ih _)

/-- **Extraction respects what its reads respect.** -/
theorem get_rel (t : Ty) (u : Unmarshall) : R u (u.get t).1 := by
  have hw : ∀ v : Unmarshall, R v v.getUint.1 := word_rel h
  induction t generalizing u with
  | basic b => exact getBasic_rel h b u
  | attr =>
    simp only [get, getAttr]
    exact h.trans (h.trans (h.trans (hw u) (hw u.getUint.1)) (hw u.getUint.1.getUint.1))
      (hw u.getUint.1.getUint.1.getUint.1)
  | vector t ih => exact h.trans (hw u) (getMany_rel h ih _ _)
  | map k t ih =>
    simp only [get]
    refine h.trans (hw u) (getMany_rel h (fun v => ?_) _ _)
    exact h.trans (getBasic_rel h k v) (ih _)

/-- **What every access respects**, extracting a tuple respects. -/
theorem getAll_rel (ts : List Ty) (u : Unmarshall) : R u (u.getAll ts).1 := by
  induction ts generalizing u with
  | nil => exact h.refl u
  | cons t ts ih => exact h.trans (get_rel h t u) (ih _)

end Rel

/-! ## The property and the condition -/

/-- The accesses recorded in `u` stay inside a buffer of `sz` bytes:
whatever was read lies inside it, while `ok()` the cursor stays inside
and never moves back, and `ok()` never comes back. -/
structure InBuffer (sz : ℕ) (u : Unmarshall) : Prop where
  reads : ∀ a ∈ u.trace, a.done = true → a.ind + a.len ≤ sz
  cursor : ∀ a ∈ u.trace, a.ok = true → a.ind ≤ a.ind' ∧ a.ind' ≤ sz
  sticky : ∀ a ∈ u.trace, a.ok' = true → a.ok = true
  /-- Of any two accesses, the later finds `ok()` only where the earlier
  left it, and the cursor at or past where the earlier left that. -/
  linked : u.trace.Pairwise fun later earlier =>
    later.ok = true → earlier.ok' = true ∧ earlier.ind' ≤ later.ind

/-- No string length makes `_ind+n` wrap around. -/
def NoWrap (u : Unmarshall) : Prop :=
  ∀ a ∈ u.trace, a.range = true → a.ind + a.len < 2 ^ 32

/-- The cursor as extraction finds it: on the server past a request
header that was there, on the client after `take_in`. -/
def Ready (b : ℕ → UInt8) (sz : ℕ) (u : Unmarshall) : Prop :=
  (u = (ofBuf b sz).unpackReqHeader.1.fresh ∧ u.ok = true) ∨ u = takeIn (ofBuf b sz)

/-! ## What the record says of each access -/

/-- What `rawbytes` records: it is called with `ok()`, and refuses only
a sum past the end. -/
def Recorded (sz : ℕ) (a : Access) : Prop :=
  a.range = true → a.ok = true ∧ a.len < 2 ^ 32 ∧
    (a.done = false → sz < (a.ind + a.len) % 2 ^ 32)

/-- The size stays, and the record grows by accesses `rawbyte` and
`rawbytes` can make. -/
def Extends (u v : Unmarshall) : Prop :=
  v.sz = u.sz ∧ ((∀ a ∈ u.trace, Recorded u.sz a) → ∀ a ∈ v.trace, Recorded u.sz a)

theorem extends_rawbyte (u : Unmarshall) : Extends u u.rawbyte.1 := by
  refine ⟨rawbyte_sz u, fun h a ha => ?_⟩
  unfold rawbyte at ha
  split at ha <;> rcases List.mem_cons.1 ha with rfl | ha
  · exact fun hr => by cases hr
  · exact h a ha
  · exact fun hr => by cases hr
  · exact h a ha

/-- A run of bytes adds an access, and no more. -/
theorem extends_rawbytes (u : Unmarshall) (n : UInt32) (hok : u.ok = true) :
    Extends u (u.rawbytes [] n).1 := by
  have hn := n.toNat_lt
  unfold rawbytes
  split
  · rename_i hgt
    refine ⟨rfl, fun h a ha => ?_⟩
    rcases List.mem_cons.1 ha with rfl | ha
    · exact fun _ => ⟨hok, hn, fun _ => hgt⟩
    · exact h a ha
  · refine ⟨rfl, fun h a ha => ?_⟩
    rcases List.mem_cons.1 ha with rfl | ha
    · exact fun _ => ⟨hok, hn, fun hd => by cases hd⟩
    · exact h a ha

theorem respected_extends : Respected Extends where
  refl _ := ⟨rfl, fun h => h⟩
  trans := by
    rintro u v w ⟨huv, h⟩ ⟨hvw, h'⟩
    refine ⟨hvw.trans huv, fun hu => ?_⟩
    rw [huv] at h'
    exact h' (h hu)
  byte := extends_rawbyte
  range := extends_rawbytes

/-! ## Without wrap-around the buffer is never left -/

/-- The invariant of extraction: the record is fine, and the cursor is
where the record leaves it. -/
structure Good (sz : ℕ) (u : Unmarshall) : Prop extends InBuffer sz u where
  size : u.sz = sz
  inside : u.ok = true → u.ind ≤ sz
  latest : u.ok = true → ∀ a ∈ u.trace, a.ok' = true ∧ a.ind' ≤ u.ind

/-- A reader that finds too few bytes left records a refusal. -/
theorem Good.refuse {sz : ℕ} {u : Unmarshall} (h : Good sz u) (range : Bool) (n : ℕ) :
    Good sz { u with
      ok := false, trace := ⟨range, u.ind, n, u.ok, false, u.ind, false⟩ :: u.trace } := by
  refine ⟨⟨?_, ?_, ?_, ?_⟩, h.size, fun hok => (by cases hok), fun hok => (by cases hok)⟩
  · intro a ha hd
    rcases List.mem_cons.1 ha with rfl | ha
    · cases hd
    · exact h.reads a ha hd
  · intro a ha hok
    rcases List.mem_cons.1 ha with rfl | ha
    · exact ⟨le_refl _, h.inside hok⟩
    · exact h.cursor a ha hok
  · intro a ha hok
    rcases List.mem_cons.1 ha with rfl | ha
    · cases hok
    · exact h.sticky a ha hok
  · exact List.pairwise_cons.2 ⟨fun a ha hok => h.latest hok a ha, h.linked⟩

/-- A reader that finds its bytes records them and moves past them. -/
theorem Good.advance {sz : ℕ} {u : Unmarshall} (h : Good sz u) (range : Bool) {n : ℕ}
    (hn : u.ind + n ≤ sz) :
    Good sz { u with
      ind := u.ind + n
      trace := ⟨range, u.ind, n, u.ok, true, u.ind + n, u.ok⟩ :: u.trace } := by
  refine ⟨⟨?_, ?_, ?_, ?_⟩, h.size, fun _ => hn, ?_⟩
  · intro a ha hd
    rcases List.mem_cons.1 ha with rfl | ha
    · exact hn
    · exact h.reads a ha hd
  · intro a ha hok
    rcases List.mem_cons.1 ha with rfl | ha
    · exact ⟨Nat.le_add_right _ _, hn⟩
    · exact h.cursor a ha hok
  · intro a ha hok
    rcases List.mem_cons.1 ha with rfl | ha
    · exact hok
    · exact h.sticky a ha hok
  · exact List.pairwise_cons.2 ⟨fun a ha hok => h.latest hok a ha, h.linked⟩
  · intro hok a ha
    rcases List.mem_cons.1 ha with rfl | ha
    · exact ⟨hok, le_refl _⟩
    · obtain ⟨hok', hind⟩ := h.latest hok a ha
      exact ⟨hok', hind.trans (Nat.le_add_right _ _)⟩

theorem good_rawbyte {sz : ℕ} {u : Unmarshall} (h : Good sz u) : Good sz u.rawbyte.1 := by
  have hs := h.size
  unfold rawbyte
  split
  · exact h.refuse false 1
  · exact h.advance false (by omega)

/-- A run whose length does not wrap stays inside the buffer. -/
theorem good_rawbytes {sz : ℕ} {u : Unmarshall} {n : UInt32}
    (hw : u.ind + n.toNat < 2 ^ 32) (h : Good sz u) : Good sz (u.rawbytes [] n).1 := by
  have hs := h.size
  have hmod : (u.ind + n.toNat) % 2 ^ 32 = u.ind + n.toNat := Nat.mod_eq_of_lt hw
  rw [rawbytes, hmod]
  split
  · exact h.refuse true n.toNat
  · exact h.advance true (by omega)

/-- Extraction keeps a good cursor good as long as nothing wraps. -/
theorem respected_good (sz : ℕ) :
    Respected fun u v => (NoWrap u → Good sz u) → NoWrap v → Good sz v where
  refl _ h := h
  trans h h' := fun hu => h' (h hu)
  byte u h hw := by
    refine good_rawbyte (h fun a ha hr => hw a ?_ hr)
    unfold rawbyte
    split <;> exact List.mem_cons_of_mem _ ha
  range u n _ h hw := by
    have hmem : ∀ a ∈ u.trace, a ∈ (u.rawbytes [] n).1.trace := by
      intro a ha
      unfold rawbytes
      split <;> exact List.mem_cons_of_mem _ ha
    have hnew : u.ind + n.toNat < 2 ^ 32 := by
      unfold NoWrap rawbytes at hw
      split at hw
      · exact hw _ List.mem_cons_self rfl
      · exact hw _ List.mem_cons_self rfl
    exact good_rawbytes hnew (h fun a ha hr => hw a (hmem a ha) hr)

/-- Past a request header that was there, the cursor is inside. -/
theorem le_sz_of_unpackReqHeader {u : Unmarshall} (h : u.unpackReqHeader.1.ok = true) :
    rpcHeaderSz ≤ u.sz ∧ u.unpackReqHeader.1.sz = u.sz := by
  have key : ∀ v : Unmarshall, v.unpack.1.ok = true →
      v.ok = true ∧ v.ind + 4 ≤ v.sz ∧ v.unpack.1.ind = v.ind + 4 ∧ v.unpack.1.sz = v.sz := by
    intro v hv
    rw [unpack_fst] at hv ⊢
    obtain ⟨ho, hi⟩ := word_ok hv
    exact ⟨ho, hi, (advances_word hi).1.ind, (advances_word hi).1.sz⟩
  simp only [unpackReqHeader] at h ⊢
  obtain ⟨o5, l5, i5, s5⟩ := key _ h
  obtain ⟨o4, l4, i4, s4⟩ := key _ o5
  obtain ⟨o3, l3, i3, s3⟩ := key _ o4
  obtain ⟨o2, l2, i2, s2⟩ := key _ o3
  obtain ⟨-, l1, i1, s1⟩ := key _ o2
  have hs : rpcSzSz + 20 = rpcHeaderSz := rfl
  dsimp only at i1 s1 l1
  omega

/-- The cursor is inside the buffer in the beginning. -/
theorem good_of_ready {b : ℕ → UInt8} {sz : ℕ} {u : Unmarshall} (h : Ready b sz u) :
    Good sz u := by
  have hnil : ∀ v : Unmarshall, v.trace = [] → InBuffer sz v := fun v hv =>
    ⟨by simp [hv], by simp [hv], by simp [hv], by simp [hv]⟩
  rcases h with ⟨rfl, hok⟩ | rfl
  · rw [fresh_ok] at hok
    obtain ⟨hle, hsz⟩ := le_sz_of_unpackReqHeader hok
    refine ⟨hnil _ (fresh_trace _), ?_, fun _ => ?_, fun _ a ha => by simp at ha⟩
    · rw [fresh_sz]; exact hsz
    · rw [fresh_ind, unpackReqHeader_ind]; exact hle
  · refine ⟨hnil _ rfl, rfl, fun hok => ?_, fun _ a ha => by simp [takeIn] at ha⟩
    exact of_decide_eq_true hok

/-- **Extraction stays inside the buffer exactly when nothing wraps.**
A length that makes `_ind+n` wrap brings the sum below the cursor, where
the bounds check cannot fail. -/
theorem inBuffer_iff_noWrap {b : ℕ → UInt8} {sz : ℕ} {u : Unmarshall} (hsz : sz ≤ maxPdu)
    (hu : Ready b sz u) (ts : List Ty) :
    InBuffer sz (u.getAll ts).1 ↔ NoWrap (u.getAll ts).1 := by
  have hpdu : maxPdu < 2 ^ 32 := by decide
  have hg := good_of_ready hu
  constructor
  · intro h a ha hr
    have hrec := (getAll_rel respected_extends ts u).2 (fun a ha => ?_) a ha
    · obtain ⟨hok, hlen, hrefused⟩ := hrec hr
      rw [hg.size] at hrefused
      by_contra hge
      have hcur := h.cursor a ha hok
      cases hd : a.done with
      | true =>
        have := h.reads a ha hd
        omega
      | false =>
        have := hrefused hd
        have hmod : (a.ind + a.len) % 2 ^ 32 = a.ind + a.len - 2 ^ 32 := by
          rw [Nat.mod_eq_sub_mod (by omega), Nat.mod_eq_of_lt (by omega)]
        omega
    · rcases hu with ⟨rfl, -⟩ | rfl
      · simp at ha
      · simp [takeIn] at ha
  · intro h
    exact (getAll_rel (respected_good sz) ts u (fun _ => hg) h).toInBuffer

/-- A request whose body is the string `"hi"`. -/
def hiPdu : List UInt8 := List.replicate 24 0 ++ [0, 0, 0, 2, 104, 105]

/-- The cursor past its header. -/
def hiCursor : Unmarshall := (ofBuf (fun k => hiPdu.getD k 0) 30).unpackReqHeader.1.fresh

/-- It is extracted, and nothing outside the buffer is read. -/
theorem inBuffer_iff_noWrap_hiPdu :
    Ready (fun k => hiPdu.getD k 0) 30 hiCursor ∧
      (hiCursor.getAll [.basic .string]).2 = ([104, 105], ()) ∧
      InBuffer 30 (hiCursor.getAll [.basic .string]).1 := by
  have hready : Ready (fun k => hiPdu.getD k 0) 30 hiCursor := Or.inl ⟨rfl, by decide⟩
  have hwrap : NoWrap (hiCursor.getAll [.basic .string]).1 := by
    unfold NoWrap
    decide
  exact ⟨hready, by decide, (inBuffer_iff_noWrap (by decide) hready [.basic .string]).2 hwrap⟩

/-- A request whose body is one string length, `2 ^ 32 - 28`: at cursor
`28` the sum of the bounds check is `0`. -/
def wrapPdu : List UInt8 := List.replicate 24 0 ++ [0xff, 0xff, 0xff, 0xe4]

/-- The cursor past its header. -/
def wrapCursor : Unmarshall := (ofBuf (fun k => wrapPdu.getD k 0) 28).unpackReqHeader.1.fresh

/-- Extracting a string from it reads four gigabytes from byte `28` of a
PDU of `28` bytes, and moves the cursor back to the front. -/
theorem not_inBuffer_wrapPdu :
    Ready (fun k => wrapPdu.getD k 0) 28 wrapCursor ∧
      ¬ InBuffer 28 (wrapCursor.getAll [.basic .string]).1 := by
  refine ⟨Or.inl ⟨rfl, by decide⟩, fun h => ?_⟩
  have hread : (⟨true, 28, 4294967268, true, true, 0, true⟩ : Access) ∈
      (wrapCursor.getAll [.basic .string]).1.trace := by decide
  have hle : 28 + 4294967268 ≤ 28 := h.reads _ hread rfl
  omega

end Unmarshall

end Yfs
