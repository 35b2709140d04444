import Yfs.Common.Run
import Yfs.Marshall.RoundTrip

/-!
# The capacity of the marshalling buffer

`marshall` as the machine runs it. A byte is stored inside of what is
allocated, an `int` does not overflow, and `realloc` keeps the bytes that
both sizes have and leaves anything in those it adds; where one of these
would fail, the result is `none`. `within_capacity` says that none does,
for every sequence of operations with a message of at most `MAX_PDU` bytes,
and that what is written is what `Marshall.Buffer` says, which has no
bounds to keep.
-/

namespace Yfs

open Common

/-- The value of an `int`; `none` where it overflows. -/
def asInt (n : ℕ) : Option ℕ := if n < 2 ^ 31 then some n else none

/-! ## Operations -/

namespace Checked

variable (heap : ℕ → ℕ → UInt8)

/-- `realloc`. The bytes it adds hold what the heap held there. -/
def realloc (m : Marshall) (capa : ℕ) : Marshall :=
  { m with
    buf := fun i => if i < min m.capa capa then m.buf i else heap capa i
    capa := capa }

/-- `marshall::rawbyte`. -/
def rawbyte (m : Marshall) (x : UInt8) : Option Marshall :=
  (if m.ind ≥ m.capa then (asInt (m.capa * 2)).map (realloc heap m) else some m).bind fun m =>
    if m.ind < m.capa then
      (asInt (m.ind + 1)).map fun ind =>
        { m with buf := Function.update m.buf m.ind x, ind := ind }
    else none

/-- `marshall::rawbytes`. The bytes of `memcpy` are stored all or none. -/
def rawbytes (m : Marshall) (p : List UInt8) : Option Marshall :=
  (asInt p.length).bind fun n =>
    (asInt (m.ind + n)).bind fun sum =>
      (if sum > m.capa then
        (asInt (if m.capa > n then 2 * m.capa else m.capa + n)).map (realloc heap m)
      else some m).bind fun m =>
        if m.ind + n ≤ m.capa then some { m with buf := writeAt m.buf m.ind p, ind := sum }
        else none

/-- `marshall::pack`. -/
def pack (m : Marshall) (x : Int32) : Option Marshall :=
  (rawbyte heap m ((x >>> 24) &&& 0xff).toUInt32.toUInt8).bind fun m =>
    (rawbyte heap m ((x >>> 16) &&& 0xff).toUInt32.toUInt8).bind fun m =>
      (rawbyte heap m ((x >>> 8) &&& 0xff).toUInt32.toUInt8).bind fun m =>
        rawbyte heap m (x &&& 0xff).toUInt32.toUInt8

/-- `marshall::pack_req_header`. -/
def packReqHeader (m : Marshall) (h : ReqHeader) : Option Marshall :=
  let savedSz := m.ind
  (pack heap { m with ind := rpcSzSz } h.xid).bind fun m =>
    (pack heap m h.proc).bind fun m =>
      (pack heap m h.cltNonce.toInt32).bind fun m =>
        (pack heap m h.srvNonce.toInt32).bind fun m =>
          (pack heap m h.xidRep).map fun m => { m with ind := savedSz }

/-- `marshall::pack_reply_header`. -/
def packReplyHeader (m : Marshall) (h : ReplyHeader) : Option Marshall :=
  let savedSz := m.ind
  (pack heap { m with ind := rpcSzSz } h.xid).bind fun m =>
    (pack heap m h.ret).map fun m => { m with ind := savedSz }

end Checked

/-- An operation on a `marshall`. -/
inductive MarshallOp where
  | rawbyte (x : UInt8)
  | rawbytes (p : List UInt8)
  | pack (x : Int32)
  | packReqHeader (h : ReqHeader)
  | packReplyHeader (h : ReplyHeader)

namespace MarshallOp

/-- What it appends. -/
def bytes : MarshallOp → List UInt8
  | .rawbyte x => [x]
  | .rawbytes p => p
  | .pack x => be32 x.toUInt32
  | .packReqHeader _ => []
  | .packReplyHeader _ => []

/-- What it writes after the size of the PDU. -/
def header : MarshallOp → List UInt8
  | .packReqHeader h => h.enc
  | .packReplyHeader h => h.enc
  | _ => []

/-- The byte belongs to the header that is packed. -/
def Packs (op : MarshallOp) (i : ℕ) : Prop := rpcSzSz ≤ i ∧ i < rpcSzSz + op.header.length

end MarshallOp

/-- The operation, with the checks. -/
def Checked.step (heap : ℕ → ℕ → UInt8) (m : Marshall) : MarshallOp → Option Marshall
  | .rawbyte x => rawbyte heap m x
  | .rawbytes p => rawbytes heap m p
  | .pack x => pack heap m x
  | .packReqHeader h => packReqHeader heap m h
  | .packReplyHeader h => packReplyHeader heap m h

/-- The operation of `Marshall.Buffer`. -/
def Marshall.after (m : Marshall) : MarshallOp → Marshall
  | .rawbyte x => m.rawbyte x
  | .rawbytes p => m.rawbytes p
  | .pack x => m.pack x
  | .packReqHeader h => m.packReqHeader h
  | .packReplyHeader h => m.packReplyHeader h

/-- The cursor is between the header and the end, and the capacity is an
`int`. -/
structure InBounds (m : Marshall) : Prop where
  header_le : rpcHeaderSz ≤ m.ind
  ind_le : m.ind ≤ m.capa
  capa_lt : m.capa < 2 ^ 31

/-- The operation is carried out, with every byte stored below `_capa`, and
leaves what was written before, but for the header it packs. -/
def Keeps (heap : ℕ → ℕ → UInt8) (m : Marshall) (op : MarshallOp) : Prop :=
  ∃ m', Checked.step heap m op = some m' ∧ ∀ i < m.ind, ¬ op.Packs i → m'.buf i = m.buf i

/-! ## Appending -/

/-- `m'` is `m` after `bs` was written. The buffer grows only where it has
to, and is not much larger than what it holds then. -/
structure Written (m m' : Marshall) (bs : List UInt8) : Prop where
  ind : m'.ind = m.ind + bs.length
  le : m'.ind ≤ m'.capa
  capa : m'.capa = m.capa ∨ (m.capa < m'.capa ∧ m'.capa ≤ 2 * m'.ind)
  bytes : ∀ i < m'.ind, m'.buf i = writeAt m.buf m.ind bs i
  same : m'.capa = m.capa → m'.buf = writeAt m.buf m.ind bs

section

variable {heap : ℕ → ℕ → UInt8} {m m' m'' : Marshall} {as bs : List UInt8}

theorem Written.capa_le (h : Written m m' bs) : m.capa ≤ m'.capa := by
  have := h.capa
  omega

theorem Written.trans (h : Written m m' as) (h' : Written m' m'' bs) :
    Written m m'' (as ++ bs) := by
  have hind := h.ind
  have hind' := h'.ind
  refine ⟨?_, h'.le, ?_, fun i hi => ?_, fun hsame => ?_⟩
  · rw [List.length_append]
    omega
  · have hcapa := h.capa
    have hcapa' := h'.capa
    omega
  · rw [h'.bytes i hi, writeAt_append, ← hind]
    refine writeAt_apply_congr fun hout => h.bytes i ?_
    omega
  · have hle := h.capa_le
    have hle' := h'.capa_le
    rw [h'.same (by omega), h.same (by omega), writeAt_append, ← hind]

theorem asInt_of_lt {n : ℕ} (h : n < 2 ^ 31) : asInt n = some n := if_pos h

/-- A byte that `realloc` keeps. -/
theorem realloc_buf {capa i : ℕ} (hi : i < m.capa) (hle : m.capa ≤ capa) :
    (Checked.realloc heap m capa).buf i = m.buf i := by
  unfold Checked.realloc
  exact if_pos (by omega)

/-- **`rawbyte`**: where there is no room, twice the capacity is enough. -/
theorem rawbyte_written (heap : ℕ → ℕ → UInt8) (hle : m.ind ≤ m.capa)
    (hpos : 0 < m.capa) (hsize : m.ind + 1 ≤ maxPdu) (x : UInt8) :
    ∃ m', Checked.rawbyte heap m x = some m' ∧ Written m m' [x] := by
  have hmax : maxPdu = 10485760 := by decide
  unfold Checked.rawbyte
  by_cases hfull : m.ind ≥ m.capa
  · rw [if_pos hfull, asInt_of_lt (by omega), Option.map_some, Option.bind_some]
    have hroom : (Checked.realloc heap m (m.capa * 2)).ind <
        (Checked.realloc heap m (m.capa * 2)).capa := by
      show m.ind < m.capa * 2
      omega
    rw [if_pos hroom]
    change ∃ m', (asInt (m.ind + 1)).map _ = some m' ∧ _
    rw [asInt_of_lt (by omega), Option.map_some]
    refine ⟨_, rfl, rfl, hroom, .inr ⟨?_, ?_⟩, fun i hi => ?_, fun hsame => ?_⟩
    · show m.capa < m.capa * 2
      omega
    · show m.capa * 2 ≤ 2 * (m.ind + 1)
      omega
    · change i < m.ind + 1 at hi
      show Function.update (Checked.realloc heap m (m.capa * 2)).buf m.ind x i =
        Function.update m.buf m.ind x i
      by_cases hlast : i = m.ind
      · rw [hlast, Function.update_self, Function.update_self]
      · rw [Function.update_of_ne hlast, Function.update_of_ne hlast,
          realloc_buf (by omega) (by omega)]
    · change m.capa * 2 = m.capa at hsame
      omega
  · rw [if_neg hfull, Option.bind_some, if_pos (by omega), asInt_of_lt (by omega), Option.map_some]
    refine ⟨_, rfl, rfl, ?_, .inl rfl, fun i _ => rfl, fun _ => rfl⟩
    show m.ind + 1 ≤ m.capa
    omega

/-- **`rawbytes`**: either formula makes room for all of the bytes. -/
theorem rawbytes_written (heap : ℕ → ℕ → UInt8) (hle : m.ind ≤ m.capa) {p : List UInt8}
    (hsize : m.ind + p.length ≤ maxPdu) :
    ∃ m', Checked.rawbytes heap m p = some m' ∧ Written m m' p := by
  have hmax : maxPdu = 10485760 := by decide
  unfold Checked.rawbytes
  rw [asInt_of_lt (by omega), Option.bind_some, asInt_of_lt (by omega), Option.bind_some]
  by_cases hfull : m.ind + p.length > m.capa
  · have hgrow : ∃ capa, (if m.capa > p.length then 2 * m.capa else m.capa + p.length) = capa ∧
        m.ind + p.length ≤ capa ∧ m.capa < capa ∧ capa ≤ 2 * (m.ind + p.length) := by
      refine ⟨_, rfl, ?_⟩
      split
      · omega
      · omega
    obtain ⟨capa, hcapa, hroom, hlt, htwice⟩ := hgrow
    rw [if_pos hfull, hcapa, asInt_of_lt (by omega), Option.map_some, Option.bind_some]
    change ∃ m', (if m.ind + p.length ≤ capa then _ else none) = some m' ∧ _
    rw [if_pos hroom]
    refine ⟨_, rfl, rfl, hroom, .inr ⟨hlt, htwice⟩, fun i hi => ?_, fun hsame => ?_⟩
    · change i < m.ind + p.length at hi
      refine writeAt_apply_congr fun hout => realloc_buf ?_ (by omega)
      change i < m.ind ∨ m.ind + p.length ≤ i at hout
      omega
    · change capa = m.capa at hsame
      omega
  · rw [if_neg hfull, Option.bind_some, if_pos (by omega)]
    refine ⟨_, rfl, rfl, ?_, .inl rfl, fun i _ => rfl, fun _ => rfl⟩
    show m.ind + p.length ≤ m.capa
    omega

/-- One more byte. -/
theorem Written.rawbyte (h : Written m m' as) (hpos : 0 < m.capa)
    (hsize : m.ind + as.length + 1 ≤ maxPdu) (heap : ℕ → ℕ → UInt8) (x : UInt8) :
    ∃ m'', Checked.rawbyte heap m' x = some m'' ∧ Written m m'' (as ++ [x]) := by
  have hind := h.ind
  have hcapa := h.capa_le
  obtain ⟨m'', hs, hw⟩ := rawbyte_written heap h.le (by omega) (by omega) x
  exact ⟨m'', hs, h.trans hw⟩

/-- `pack`, as four bytes. -/
theorem pack_written (heap : ℕ → ℕ → UInt8) (hle : m.ind ≤ m.capa) (hpos : 0 < m.capa)
    (hsize : m.ind + 4 ≤ maxPdu) (x : Int32) :
    ∃ m', Checked.pack heap m x = some m' ∧ Written m m' (be32 x.toUInt32) := by
  have hlow : (x &&& 0xff).toUInt32.toUInt8 = x.toUInt32.toUInt8 := by
    rw [Int32.toUInt32_and]
    exact Marshall.and_ff_toUInt8 x.toUInt32
  unfold Checked.pack
  rw [Marshall.shift_and_ff_24, Marshall.shift_and_ff_16, Marshall.shift_and_ff_8, hlow]
  obtain ⟨m1, e1, w1⟩ := rawbyte_written heap hle hpos (by omega) (x.toUInt32 >>> 24).toUInt8
  obtain ⟨m2, e2, w2⟩ := w1.rawbyte hpos (show m.ind + 1 + 1 ≤ maxPdu by omega) heap
    (x.toUInt32 >>> 16).toUInt8
  obtain ⟨m3, e3, w3⟩ := w2.rawbyte hpos (show m.ind + 2 + 1 ≤ maxPdu by omega) heap
    (x.toUInt32 >>> 8).toUInt8
  obtain ⟨m4, e4, w4⟩ := w3.rawbyte hpos (show m.ind + 3 + 1 ≤ maxPdu by omega) heap
    x.toUInt32.toUInt8
  rw [e1, Option.bind_some, e2, Option.bind_some, e3, Option.bind_some, e4]
  exact ⟨m4, rfl, w4⟩

/-- One more word. -/
theorem Written.pack (h : Written m m' as) (hpos : 0 < m.capa)
    (hsize : m.ind + as.length + 4 ≤ maxPdu) (heap : ℕ → ℕ → UInt8) (x : Int32) :
    ∃ m'', Checked.pack heap m' x = some m'' ∧ Written m m'' (as ++ be32 x.toUInt32) := by
  have hind := h.ind
  have hcapa := h.capa_le
  obtain ⟨m'', hs, hw⟩ := pack_written heap h.le (by omega) (by omega) x
  exact ⟨m'', hs, h.trans hw⟩

end

/-! ## The invariant -/

/-- The invariant: the capacity is the initial one, or no more than twice
what was written. -/
structure Room (m : Marshall) : Prop where
  header_le : rpcHeaderSz ≤ m.ind
  ind_le : m.ind ≤ m.capa
  le_capa : defaultRpcSz ≤ m.capa
  capa_le : m.capa = defaultRpcSz ∨ m.capa ≤ 2 * m.ind

/-- What an operation does. -/
structure Stepped (op : MarshallOp) (m m' : Marshall) : Prop where
  room : Room m'
  ind : m'.ind = m.ind + op.bytes.length
  bytes : ∀ i < m'.ind, m'.buf i = writeAt (writeAt m.buf rpcSzSz op.header) m.ind op.bytes i

section

variable {m m' : Marshall} {bs : List UInt8} {op : MarshallOp}

theorem room_new (mem : ℕ → UInt8) : Room (.new mem) :=
  ⟨Nat.le_refl _, show rpcHeaderSz ≤ defaultRpcSz by decide, Nat.le_refl _, .inl rfl⟩

theorem Room.inBounds (h : Room m) (hsize : m.ind ≤ maxPdu) : InBounds m := by
  have hmax : maxPdu = 10485760 := by decide
  have hdefault : defaultRpcSz = 1024 := rfl
  have hcapa := h.capa_le
  exact ⟨h.header_le, h.ind_le, by omega⟩

theorem Room.append (h : Room m) (hw : Written m m' bs) : Room m' := by
  have hind := hw.ind
  have hcapa := hw.capa
  obtain ⟨hheader, -, hdefault, hbound⟩ := h
  exact ⟨by omega, hw.le, by omega, by omega⟩

/-- A header that was packed with the cursor put back: there is room for
it from the start, so the buffer has not grown. -/
theorem Room.rewind (h : Room m) (hw : Written { m with ind := rpcSzSz } m' bs)
    (hlen : rpcSzSz + bs.length ≤ rpcHeaderSz) (hbytes : op.bytes = []) (hheader : op.header = bs) :
    Stepped op m { m' with ind := m.ind } := by
  have hsame : m'.capa = m.capa := by
    have hind : m'.ind = rpcSzSz + bs.length := hw.ind
    have hcapa : m'.capa = m.capa ∨ (m.capa < m'.capa ∧ m'.capa ≤ 2 * m'.ind) := hw.capa
    have hdefault := h.le_capa
    have hsizes : rpcHeaderSz = 24 ∧ defaultRpcSz = 1024 := ⟨rfl, rfl⟩
    omega
  refine ⟨⟨h.header_le, hsame ▸ h.ind_le, hsame ▸ h.le_capa, hsame ▸ h.capa_le⟩, ?_, fun i _ => ?_⟩
  · rw [hbytes]
    rfl
  · rw [hbytes, hheader, writeAt_nil]
    exact congrFun (hw.same hsame) i

/-- The first word of a header. -/
theorem Room.packXid (hm : Room m) (heap : ℕ → ℕ → UInt8) (xid : Int32) :
    ∃ m', Checked.pack heap { m with ind := rpcSzSz } xid = some m' ∧
      Written { m with ind := rpcSzSz } m' (be32 xid.toUInt32) := by
  have hsizes : rpcSzSz = 4 ∧ defaultRpcSz = 1024 := ⟨rfl, rfl⟩
  have hdefault := hm.le_capa
  exact pack_written (m := { m with ind := rpcSzSz }) heap (show rpcSzSz ≤ m.capa by omega)
    (show 0 < m.capa by omega) (show rpcSzSz + 4 ≤ maxPdu by decide) xid

/-- **`pack_req_header`.** -/
theorem Room.packReqHeader (hm : Room m) (heap : ℕ → ℕ → UInt8) (h : ReqHeader) :
    ∃ m', Checked.packReqHeader heap m h = some m' ∧ Stepped (.packReqHeader h) m m' := by
  have hpos : 0 < m.capa := Nat.lt_of_lt_of_le (by decide) hm.le_capa
  obtain ⟨m1, e1, w1⟩ := hm.packXid heap h.xid
  obtain ⟨m2, e2, w2⟩ := w1.pack hpos (show 4 + 4 + 4 ≤ maxPdu by decide) heap h.proc
  obtain ⟨m3, e3, w3⟩ := w2.pack hpos (show 4 + 8 + 4 ≤ maxPdu by decide) heap
    h.cltNonce.toInt32
  obtain ⟨m4, e4, w4⟩ := w3.pack hpos (show 4 + 12 + 4 ≤ maxPdu by decide) heap
    h.srvNonce.toInt32
  obtain ⟨m5, e5, w5⟩ := w4.pack hpos (show 4 + 16 + 4 ≤ maxPdu by decide) heap h.xidRep
  unfold Checked.packReqHeader
  dsimp only
  rw [e1, Option.bind_some, e2, Option.bind_some, e3, Option.bind_some, e4, Option.bind_some, e5]
  exact ⟨_, rfl, hm.rewind w5 (Nat.le_refl _) rfl rfl⟩

/-- **`pack_reply_header`.** -/
theorem Room.packReplyHeader (hm : Room m) (heap : ℕ → ℕ → UInt8) (h : ReplyHeader) :
    ∃ m', Checked.packReplyHeader heap m h = some m' ∧ Stepped (.packReplyHeader h) m m' := by
  have hpos : 0 < m.capa := Nat.lt_of_lt_of_le (by decide) hm.le_capa
  obtain ⟨m1, e1, w1⟩ := hm.packXid heap h.xid
  obtain ⟨m2, e2, w2⟩ := w1.pack hpos (show 4 + 4 + 4 ≤ maxPdu by decide) heap h.ret
  unfold Checked.packReplyHeader
  dsimp only
  rw [e1, Option.bind_some, e2]
  exact ⟨_, rfl, hm.rewind w2 (show 4 + 8 ≤ rpcHeaderSz by decide) rfl rfl⟩

/-- **One operation**, where its message is not too long. -/
theorem Room.step (hm : Room m) (hsize : m.ind + op.bytes.length ≤ maxPdu)
    (heap : ℕ → ℕ → UInt8) :
    ∃ m', Checked.step heap m op = some m' ∧ Stepped op m m' := by
  have hpos : 0 < m.capa := Nat.lt_of_lt_of_le (by decide) hm.le_capa
  rcases op with x | p | x | h | h
  · obtain ⟨m', hs, hw⟩ := rawbyte_written heap hm.ind_le hpos hsize x
    exact ⟨m', hs, hm.append hw, hw.ind, hw.bytes⟩
  · obtain ⟨m', hs, hw⟩ := rawbytes_written heap hm.ind_le hsize
    exact ⟨m', hs, hm.append hw, hw.ind, hw.bytes⟩
  · obtain ⟨m', hs, hw⟩ := pack_written heap hm.ind_le hpos hsize x
    exact ⟨m', hs, hm.append hw, hw.ind, hw.bytes⟩
  · exact hm.packReqHeader heap h
  · exact hm.packReplyHeader heap h

/-- What was written before is left alone, but for the header. -/
theorem Stepped.kept (h : Stepped op m m') {i : ℕ} (hi : i < m.ind) (hpacks : ¬ op.Packs i) :
    m'.buf i = m.buf i := by
  have hind := h.ind
  rw [h.bytes i (by omega), writeAt_of_lt _ _ hi]
  unfold MarshallOp.Packs at hpacks
  by_cases hlow : i < rpcSzSz
  · exact writeAt_of_lt _ _ hlow
  · exact writeAt_of_le _ _ (by omega)

end

/-! ## Without the checks -/

/-- What was written is the same. -/
structure Agree (m u : Marshall) : Prop where
  ind : m.ind = u.ind
  bytes : ∀ i < m.ind, m.buf i = u.buf i

section

variable {m m' u : Marshall} {op : MarshallOp}

theorem Agree.str (h : Agree m u) : m.str = u.str := by
  unfold Marshall.str
  rw [← h.ind]
  exact bytesAt_congr fun i _ hi => h.bytes i (by omega)

/-- The operations of `Marshall.Buffer`, in one equation each. -/
theorem Marshall.after_eq (u : Marshall) (op : MarshallOp) :
    (u.after op).ind = u.ind + op.bytes.length ∧
      (u.after op).buf = writeAt (writeAt u.buf rpcSzSz op.header) u.ind op.bytes := by
  rcases op with x | p | x | h | h
  · exact ⟨(appends_rawbyte u x).ind, (appends_rawbyte u x).buf⟩
  · exact ⟨(appends_rawbytes u p).ind, (appends_rawbytes u p).buf⟩
  · exact ⟨(appends_pack u x).ind, (appends_pack u x).buf⟩
  · exact ⟨packReqHeader_ind u h, packReqHeader_buf u h⟩
  · exact ⟨packReplyHeader_ind u h, packReplyHeader_buf u h⟩

theorem Stepped.agree (h : Stepped op m m') (hagree : Agree m u) : Agree m' (u.after op) := by
  obtain ⟨hind, hbuf⟩ := u.after_eq op
  have hlen := h.ind
  refine ⟨by rw [h.ind, hind, hagree.ind], fun i hi => ?_⟩
  rw [h.bytes i hi, hbuf, ← hagree.ind]
  refine writeAt_apply_congr fun hout => writeAt_apply_congr fun _ => hagree.bytes i ?_
  omega

/-- The message gets no shorter. -/
theorem Marshall.ind_le_foldl (ops : List MarshallOp) (u : Marshall) :
    u.ind ≤ (ops.foldl Marshall.after u).ind := by
  induction ops generalizing u with
  | nil => exact Nat.le_refl _
  | cons op ops ih =>
    have hind := (u.after_eq op).1
    exact Nat.le_trans (by omega) (ih (u.after op))

/-- **A run**, from any buffer that keeps the bounds. -/
theorem Room.run (heap : ℕ → ℕ → UInt8) (ops : List MarshallOp) (hm : Room m) (hagree : Agree m u)
    (hsize : (ops.foldl Marshall.after u).ind ≤ maxPdu) :
    Along (Checked.step heap) InBounds m ops ∧ Steps (Checked.step heap) (Keeps heap) m ops ∧
      ∃ m', exec (Checked.step heap) m ops = some m' ∧
        Agree m' (ops.foldl Marshall.after u) := by
  have hlong := Marshall.ind_le_foldl ops u
  have hinBounds : InBounds m := hm.inBounds (by rw [hagree.ind]; omega)
  induction ops generalizing m u with
  | nil => exact ⟨hinBounds, trivial, m, rfl, hagree⟩
  | cons op ops ih =>
    have hafter := (u.after_eq op).1
    have hnext := Marshall.ind_le_foldl ops (u.after op)
    rw [List.foldl_cons] at hsize
    have hfits : m.ind + op.bytes.length ≤ maxPdu := by
      rw [hagree.ind]
      omega
    obtain ⟨m', hs, hdone⟩ := hm.step hfits heap
    have hagree' := hdone.agree hagree
    obtain ⟨halong, hsteps, t, hexec, ht⟩ := ih hdone.room hagree' hsize hnext
      (hdone.room.inBounds (by rw [hagree'.ind]; omega))
    refine ⟨⟨hinBounds, fun s hs' => ?_⟩, ⟨⟨m', hs, fun i => hdone.kept⟩, fun s hs' => ?_⟩,
      t, exec_cons_eq_some.2 ⟨m', hs, hexec⟩, ht⟩
    · exact Option.some.inj (hs.symm.trans hs') ▸ halong
    · exact Option.some.inj (hs.symm.trans hs') ▸ hsteps

end

/-- **The bounds are kept.** For any memory and heap, in every run of the
operations on a fresh `marshall` with a message of at most `MAX_PDU` bytes:
no store is outside of the buffer and no `int` overflows; after each
operation `RPC_HEADER_SZ <= _ind <= _capa`; what was written before is
still there, but for a header that is packed; and the message is the one of
`Marshall.Buffer`. -/
theorem within_capacity (heap : ℕ → ℕ → UInt8) (mem : ℕ → UInt8) (ops : List MarshallOp)
    (hsize : (ops.foldl Marshall.after (.new mem)).ind ≤ maxPdu) :
    Along (Checked.step heap) InBounds (.new mem) ops ∧
      Steps (Checked.step heap) (Keeps heap) (.new mem) ops ∧
      ∃ m, exec (Checked.step heap) (.new mem) ops = some m ∧
        m.str = (ops.foldl Marshall.after (.new mem)).str := by
  obtain ⟨halong, hsteps, m, hexec, hagree⟩ :=
    (room_new mem).run heap ops ⟨rfl, fun _ _ => rfl⟩ hsize
  exact ⟨halong, hsteps, m, hexec, hagree.str⟩

/-- A string for which the buffer grows, a byte and a word, and the header. -/
def longRequest : List MarshallOp :=
  [.rawbytes (List.replicate 1001 7), .rawbyte 1, .pack 2, .packReqHeader ⟨1, 2, 3, 4, 5⟩]

theorem within_capacity_longRequest :
    (exec (Checked.step fun _ _ => 0) (.new fun _ => 0) longRequest).map
        (fun m => (m.capa, m.ind)) = some (2048, 1030) ∧
      Along (Checked.step fun _ _ => 0) InBounds (.new fun _ => 0) longRequest := by
  refine ⟨by decide +kernel, ?_⟩
  exact (within_capacity (fun _ _ => 0) (fun _ => 0) longRequest (by decide +kernel)).1

end Yfs
