import Yfs.Marshall.Buffer

/-!
# The unmarshalling cursor

`unmarshall` of `rpc/marshall.h` and `rpc/rpc.cc`. The memory from
`_buf` on is a function of the offset, of which the first `_sz` bytes
are the PDU; a read past them yields whatever lies there, so that leaving
the buffer is a behaviour of the model and not an error of it. Beside
the four fields of the source the cursor carries a record of the
accesses made through it (`trace`), newest first, which nothing reads.
-/

namespace Yfs

open Common

/-- One call of `rawbyte` or `rawbytes`: the bytes it asked for, the
cursor and `ok()` before and after, and whether it read them. -/
structure Access where
  /-- By `rawbytes`, for the bytes of a string. -/
  range : Bool
  /-- `_ind` before. -/
  ind : ℕ
  /-- The number of bytes asked for. -/
  len : ℕ
  /-- `ok()` before. -/
  ok : Bool
  /-- The bytes were read. -/
  done : Bool
  /-- `_ind` after. -/
  ind' : ℕ
  /-- `ok()` after. -/
  ok' : Bool
deriving DecidableEq

/-- `unmarshall`. -/
structure Unmarshall where
  /-- The memory from `_buf` on. -/
  buf : ℕ → UInt8
  /-- `_sz`. -/
  sz : ℕ
  /-- `_ind`. -/
  ind : ℕ
  /-- `_ok`. -/
  ok : Bool
  /-- The accesses made so far, newest first. -/
  trace : List Access

namespace Unmarshall

/-- `unmarshall(char *b, int sz)`. -/
def ofBuf (b : ℕ → UInt8) (sz : ℕ) : Unmarshall := ⟨b, sz, 0, true, []⟩

/-- A PDU received into freshly allocated memory `mem`. -/
def ofBytes (mem : ℕ → UInt8) (p : List UInt8) : Unmarshall :=
  ofBuf (fun k => (p[k]?).getD (mem k)) p.length

/-- The same cursor with an empty record of accesses. -/
def fresh (u : Unmarshall) : Unmarshall := { u with trace := [] }

/-- `unmarshall::okdone`. -/
def okdone (u : Unmarshall) : Bool := u.ok && u.ind == u.sz

/-- `unmarshall::take_in`, of the object whose contents are taken. -/
def takeIn (another : Unmarshall) : Unmarshall :=
  ⟨another.buf, another.sz, rpcHeaderSz, decide (another.sz ≥ rpcHeaderSz), []⟩

/-- A byte as `rawbyte` returns it: a `char`, which is signed, widened to
an `unsigned int`. -/
def widen (c : UInt8) : UInt32 := c.toInt8.toInt32.toUInt32

/-- `unmarshall::rawbyte`. -/
def rawbyte (u : Unmarshall) : Unmarshall × UInt32 :=
  if u.ind ≥ u.sz then
    ({ u with ok := false, trace := ⟨false, u.ind, 1, u.ok, false, u.ind, false⟩ :: u.trace },
      widen 0)
  else
    ({ u with
        ind := u.ind + 1, trace := ⟨false, u.ind, 1, u.ok, true, u.ind + 1, u.ok⟩ :: u.trace },
      widen (u.buf u.ind))

/-- `unmarshall::rawbytes`. The sum `_ind+n` is one of `unsigned int`s. -/
def rawbytes (u : Unmarshall) (ss : List UInt8) (n : UInt32) : Unmarshall × List UInt8 :=
  if (u.ind + n.toNat) % 2 ^ 32 > u.sz then
    ({ u with ok := false, trace := ⟨true, u.ind, n.toNat, u.ok, false, u.ind, false⟩ :: u.trace },
      ss)
  else
    ({ u with
        ind := (u.ind + n.toNat) % 2 ^ 32
        trace :=
          ⟨true, u.ind, n.toNat, u.ok, true, (u.ind + n.toNat) % 2 ^ 32, u.ok⟩ :: u.trace },
      bytesAt u.buf u.ind n.toNat)

/-- Four bytes put together by shifts and masks, as every reader of a
32-bit word does. -/
def word (u : Unmarshall) : Unmarshall × UInt32 :=
  let r3 := u.rawbyte
  let x := (r3.2 &&& 0xff) <<< 24
  let r2 := r3.1.rawbyte
  let x := x ||| (r2.2 &&& 0xff) <<< 16
  let r1 := r2.1.rawbyte
  let x := x ||| (r1.2 &&& 0xff) <<< 8
  let r0 := r1.1.rawbyte
  (r0.1, x ||| (r0.2 &&& 0xff))

/-- `unmarshall::unpack`. -/
def unpack (u : Unmarshall) : Unmarshall × Int32 :=
  let r := u.word
  (r.1, r.2.toInt32)

/-- `unmarshall::unpack_req_header`. -/
def unpackReqHeader (u : Unmarshall) : Unmarshall × ReqHeader :=
  let u := { u with ind := rpcSzSz }
  let xid := u.unpack
  let proc := xid.1.unpack
  let cltNonce := proc.1.unpack
  let srvNonce := cltNonce.1.unpack
  let xidRep := srvNonce.1.unpack
  ({ xidRep.1 with ind := rpcHeaderSz },
    ⟨xid.2, proc.2, cltNonce.2.toUInt32, srvNonce.2.toUInt32, xidRep.2⟩)

/-- `unmarshall::unpack_reply_header`. -/
def unpackReplyHeader (u : Unmarshall) : Unmarshall × ReplyHeader :=
  let u := { u with ind := rpcSzSz }
  let xid := u.unpack
  let ret := xid.1.unpack
  ({ ret.1 with ind := rpcHeaderSz }, ⟨xid.2, ret.2⟩)

@[simp] theorem fresh_ok (u : Unmarshall) : u.fresh.ok = u.ok := rfl

@[simp] theorem fresh_sz (u : Unmarshall) : u.fresh.sz = u.sz := rfl

@[simp] theorem fresh_ind (u : Unmarshall) : u.fresh.ind = u.ind := rfl

@[simp] theorem fresh_trace (u : Unmarshall) : u.fresh.trace = [] := rfl

theorem word_fst (u : Unmarshall) :
    u.word.1 = u.rawbyte.1.rawbyte.1.rawbyte.1.rawbyte.1 := by
  rw [word]

/-- A signed word takes the cursor where an unsigned one takes it. -/
theorem unpack_fst (u : Unmarshall) : u.unpack.1 = u.word.1 := by
  rw [unpack]

/-- The cursor is set past the header, whatever there was to read. -/
theorem unpackReqHeader_ind (u : Unmarshall) : u.unpackReqHeader.1.ind = rpcHeaderSz := rfl

/-! ## Reading bytes that are there -/

/-- The mask undoes the sign extension of `rawbyte`. -/
theorem widen_and_ff (c : UInt8) : widen c &&& 0xff = c.toUInt32 := by
  rcases c with ⟨⟨⟨n, h⟩⟩⟩
  revert n
  decide +kernel

/-- And so does a narrowing conversion. -/
theorem widen_toUInt8 (c : UInt8) : (widen c).toUInt8 = c := by
  rcases c with ⟨⟨⟨n, h⟩⟩⟩
  revert n
  decide +kernel

/-- `u'` is `u` with the cursor moved `n` bytes on, and nothing else but
the record changed. -/
structure Advances (u u' : Unmarshall) (n : ℕ) : Prop where
  buf : u'.buf = u.buf
  sz : u'.sz = u.sz
  ok : u'.ok = u.ok
  ind : u'.ind = u.ind + n

theorem Advances.refl (u : Unmarshall) : Advances u u 0 := ⟨rfl, rfl, rfl, rfl⟩

/-- What is read in turn is read as a whole. -/
theorem Advances.trans {u u' u'' : Unmarshall} {m n : ℕ} (h : Advances u u' m)
    (h' : Advances u' u'' n) : Advances u u'' (m + n) where
  buf := h'.buf.trans h.buf
  sz := h'.sz.trans h.sz
  ok := h'.ok.trans h.ok
  ind := by rw [h'.ind, h.ind, Nat.add_assoc]

/-- A byte inside the buffer is read. -/
theorem advances_rawbyte {u : Unmarshall} (h : u.ind < u.sz) :
    Advances u u.rawbyte.1 1 ∧ u.rawbyte.2 = widen (u.buf u.ind) := by
  rw [rawbyte, if_neg (by omega)]
  exact ⟨⟨rfl, rfl, rfl, rfl⟩, rfl⟩

/-- Without wrap-around `rawbytes` reads the run asked for. -/
theorem advances_rawbytes {u : Unmarshall} {n : UInt32} (ss : List UInt8)
    (h : u.ind + n.toNat ≤ u.sz) (hsz : u.sz < 2 ^ 32) :
    Advances u (u.rawbytes ss n).1 n.toNat ∧
      (u.rawbytes ss n).2 = bytesAt u.buf u.ind n.toNat := by
  have hmod : (u.ind + n.toNat) % 2 ^ 32 = u.ind + n.toNat := Nat.mod_eq_of_lt (by omega)
  rw [rawbytes, hmod, if_neg (by omega)]
  exact ⟨⟨rfl, rfl, rfl, rfl⟩, rfl⟩

/-- The word at the cursor, when its four bytes are in the buffer. -/
theorem advances_word {u : Unmarshall} (h : u.ind + 4 ≤ u.sz) :
    Advances u u.word.1 4 ∧
      u.word.2 = join32 (u.buf u.ind) (u.buf (u.ind + 1)) (u.buf (u.ind + 2))
        (u.buf (u.ind + 3)) := by
  obtain ⟨a3, e3⟩ := advances_rawbyte (u := u) (by omega)
  obtain ⟨a2, e2⟩ := advances_rawbyte (u := u.rawbyte.1) (by rw [a3.ind, a3.sz]; omega)
  have a32 := a3.trans a2
  obtain ⟨a1, e1⟩ := advances_rawbyte (u := u.rawbyte.1.rawbyte.1)
    (by rw [a32.ind, a32.sz]; omega)
  have a321 := a32.trans a1
  obtain ⟨a0, e0⟩ := advances_rawbyte (u := u.rawbyte.1.rawbyte.1.rawbyte.1)
    (by rw [a321.ind, a321.sz]; omega)
  rw [word_fst]
  refine ⟨a321.trans a0, ?_⟩
  rw [a321.buf, a321.ind] at e0
  rw [a32.buf, a32.ind] at e1
  rw [a3.buf, a3.ind] at e2
  simp only [word, e3, e2, e1, e0, widen_and_ff, join32]

/-- A word written by its four bytes is read back. -/
theorem word_of_bytesAt {u : Unmarshall} {x : UInt32} (h : u.ind + 4 ≤ u.sz)
    (hb : bytesAt u.buf u.ind 4 = be32 x) : u.word.2 = x := by
  obtain ⟨b3, b2, b1, b0, he, hj⟩ := be32_eq x
  rw [he] at hb
  simp only [bytesAt_succ, bytesAt_zero, List.cons.injEq, and_true] at hb
  obtain ⟨h3, h2, h1, h0⟩ := hb
  rw [(advances_word h).2, h3, h2, h1, h0, hj]

/-! ## Reading past the end

`rawbyte` past the end clears `ok()`, and nothing sets it again: a
failed read stays visible to `okdone` whatever is extracted after it. -/

/-- At the end of the buffer there is none. -/
theorem rawbyte_ok_of_ge {u : Unmarshall} (h : u.sz ≤ u.ind) : u.rawbyte.1.ok = false := by
  rw [rawbyte, if_pos h]

theorem rawbyte_sz (u : Unmarshall) : u.rawbyte.1.sz = u.sz := by
  unfold rawbyte; split <;> rfl

/-- A failure stays. -/
theorem ok_of_rawbyte {u : Unmarshall} (h : u.rawbyte.1.ok = true) : u.ok = true := by
  unfold rawbyte at h
  split at h
  · cases h
  · exact h

/-- A word that reaches past the end clears `ok()`. -/
theorem word_ok {u : Unmarshall} (h : u.word.1.ok = true) : u.ok = true ∧ u.ind + 4 ≤ u.sz := by
  have key : ∀ v : Unmarshall, v.rawbyte.1.ok = true →
      v.ok = true ∧ v.ind < v.sz ∧ v.rawbyte.1.ind = v.ind + 1 ∧ v.rawbyte.1.sz = v.sz := by
    intro v hv
    have hlt : v.ind < v.sz := by
      by_contra hge
      rw [rawbyte_ok_of_ge (by omega)] at hv
      cases hv
    exact ⟨ok_of_rawbyte hv, hlt, (advances_rawbyte hlt).1.ind, rawbyte_sz v⟩
  rw [word_fst] at h
  obtain ⟨o0, l0, i0, s0⟩ := key _ h
  obtain ⟨o1, l1, i1, s1⟩ := key _ o0
  obtain ⟨o2, l2, i2, s2⟩ := key _ o1
  obtain ⟨o3, l3, i3, s3⟩ := key _ o2
  exact ⟨o3, by omega⟩

end Unmarshall

end Yfs
