import Yfs.Common.Memory
import Yfs.Common.BigEndian

/-!
# The marshalling buffer

`marshall` of `rpc/marshall.h` and `rpc/rpc.cc`: a buffer that grows,
a write cursor, and the header written by rewinding the cursor. The
buffer is a memory `ℕ → UInt8` with its capacity beside it, so that the
bytes `malloc` and `realloc` leave uninitialised are whatever the
memory holds.
-/

namespace Yfs

open Common

/-- `DEFAULT_RPC_SZ`, the size of the initial allocation. -/
def defaultRpcSz : ℕ := 1024

/-- `RPC_HEADER_SZ`: the larger header, five ints, and the four-byte
size the channel fills in. -/
def rpcHeaderSz : ℕ := 24

/-- `sizeof(rpc_sz_t)`. -/
def rpcSzSz : ℕ := 4

/-- `MAX_PDU` of `rpc/connection.cc`. -/
def maxPdu : ℕ := 10 <<< 20

/-- `req_header`. -/
structure ReqHeader where
  xid : Int32
  proc : Int32
  cltNonce : UInt32
  srvNonce : UInt32
  xidRep : Int32
deriving DecidableEq

/-- `reply_header`. -/
structure ReplyHeader where
  xid : Int32
  ret : Int32
deriving DecidableEq

/-- `marshall`. -/
structure Marshall where
  /-- The memory from `_buf` on. -/
  buf : ℕ → UInt8
  /-- `_capa`. -/
  capa : ℕ
  /-- `_ind`. -/
  ind : ℕ

namespace Marshall

/-- The constructor, on freshly allocated memory. -/
def new (mem : ℕ → UInt8) : Marshall := ⟨mem, defaultRpcSz, rpcHeaderSz⟩

/-- `marshall::rawbyte`. -/
def rawbyte (m : Marshall) (x : UInt8) : Marshall :=
  let m := if m.ind ≥ m.capa then { m with capa := m.capa * 2 } else m
  { m with buf := Function.update m.buf m.ind x, ind := m.ind + 1 }

/-- `marshall::rawbytes`. -/
def rawbytes (m : Marshall) (p : List UInt8) : Marshall :=
  let n := p.length
  let m :=
    if m.ind + n > m.capa then
      { m with capa := if m.capa > n then 2 * m.capa else m.capa + n }
    else m
  { m with buf := writeAt m.buf m.ind p, ind := m.ind + n }

/-- `marshall::pack`. The shifts are those of a signed `int`. -/
def pack (m : Marshall) (x : Int32) : Marshall :=
  let m := m.rawbyte ((x >>> 24) &&& 0xff).toUInt32.toUInt8
  let m := m.rawbyte ((x >>> 16) &&& 0xff).toUInt32.toUInt8
  let m := m.rawbyte ((x >>> 8) &&& 0xff).toUInt32.toUInt8
  m.rawbyte (x &&& 0xff).toUInt32.toUInt8

/-- `marshall::pack_req_header`: the first four bytes are left for the
channel, and the cursor comes back to where it was. -/
def packReqHeader (m : Marshall) (h : ReqHeader) : Marshall :=
  let savedSz := m.ind
  let m := { m with ind := rpcSzSz }
  let m := m.pack h.xid
  let m := m.pack h.proc
  let m := m.pack h.cltNonce.toInt32
  let m := m.pack h.srvNonce.toInt32
  let m := m.pack h.xidRep
  { m with ind := savedSz }

/-- `marshall::pack_reply_header`. -/
def packReplyHeader (m : Marshall) (h : ReplyHeader) : Marshall :=
  let savedSz := m.ind
  let m := { m with ind := rpcSzSz }
  let m := m.pack h.xid
  let m := m.pack h.ret
  { m with ind := savedSz }

/-- The bytes `take_buf`, `cstr` and `size` hand over: everything up to
the cursor, header included. -/
def str (m : Marshall) : List UInt8 := bytesAt m.buf 0 m.ind

/-- The bytes past the header. -/
def body (m : Marshall) : List UInt8 := bytesAt m.buf rpcHeaderSz (m.ind - rpcHeaderSz)

/-! ## What the writes do to the memory -/

@[simp] theorem new_ind (mem : ℕ → UInt8) : (new mem).ind = rpcHeaderSz := rfl

/-- A byte moves the cursor on by one. -/
@[simp] theorem rawbyte_ind (m : Marshall) (x : UInt8) : (m.rawbyte x).ind = m.ind + 1 := by
  simp only [rawbyte]
  split <;> rfl

/-- It is stored at the cursor. -/
@[simp] theorem rawbyte_buf (m : Marshall) (x : UInt8) :
    (m.rawbyte x).buf = Function.update m.buf m.ind x := by
  simp only [rawbyte]
  split <;> rfl

/-- A run of bytes moves the cursor behind it. -/
@[simp] theorem rawbytes_ind (m : Marshall) (p : List UInt8) :
    (m.rawbytes p).ind = m.ind + p.length := by
  simp only [rawbytes]
  split <;> rfl

/-- It is stored from the cursor on. -/
@[simp] theorem rawbytes_buf (m : Marshall) (p : List UInt8) :
    (m.rawbytes p).buf = writeAt m.buf m.ind p := by
  simp only [rawbytes]
  split <;> rfl

/-- Masking with `0xff` before the narrowing conversion changes nothing. -/
theorem and_ff_toUInt8 (x : UInt32) : (x &&& 0xff).toUInt8 = x.toUInt8 := by
  apply UInt8.toNat_inj.1
  have h : x.toNat &&& 255 = x.toNat % 2 ^ 8 := Nat.and_two_pow_sub_one_eq_mod x.toNat 8
  simp only [UInt32.toNat_toUInt8, UInt32.toNat_and, UInt32.reduceToNat, h]
  omega

private theorem getElem_ff {i : ℕ} (hi : i < 8) : (255#8)[i] = true :=
  BitVec.getElem_allOnes i hi

/-- The arithmetic shifts of `pack` pick the same bytes as logical ones:
the sign bits they bring in lie above the mask. -/
theorem shift_and_ff_24 (x : Int32) :
    ((x >>> 24) &&& 0xff).toUInt32.toUInt8 = (x.toUInt32 >>> 24).toUInt8 := by
  apply UInt8.toBitVec_inj.1
  ext i hi
  simp [BitVec.sshiftRight', BitVec.getLsbD_sshiftRight, show ¬ 32 ≤ i by omega,
    show 24 + i < 32 by omega, getElem_ff hi]

/-- The byte that `(x >> 16) & 0xff` is, for a signed `x` as well. -/
theorem shift_and_ff_16 (x : Int32) :
    ((x >>> 16) &&& 0xff).toUInt32.toUInt8 = (x.toUInt32 >>> 16).toUInt8 := by
  apply UInt8.toBitVec_inj.1
  ext i hi
  simp [BitVec.sshiftRight', BitVec.getLsbD_sshiftRight, show ¬ 32 ≤ i by omega,
    show 16 + i < 32 by omega, getElem_ff hi]

/-- The same of the byte below it. -/
theorem shift_and_ff_8 (x : Int32) :
    ((x >>> 8) &&& 0xff).toUInt32.toUInt8 = (x.toUInt32 >>> 8).toUInt8 := by
  apply UInt8.toBitVec_inj.1
  ext i hi
  simp [BitVec.sshiftRight', BitVec.getLsbD_sshiftRight, show ¬ 32 ≤ i by omega,
    show 8 + i < 32 by omega, getElem_ff hi]

/-- `m'` is `m` after appending `bs`. The capacity is left open. -/
structure Appends (m m' : Marshall) (bs : List UInt8) : Prop where
  ind : m'.ind = m.ind + bs.length
  buf : m'.buf = writeAt m.buf m.ind bs

theorem Appends.refl (m : Marshall) : Appends m m [] := ⟨rfl, rfl⟩

/-- What is appended in turn is appended as a whole. -/
theorem Appends.trans {m m' m'' : Marshall} {as bs : List UInt8} (h : Appends m m' as)
    (h' : Appends m' m'' bs) : Appends m m'' (as ++ bs) where
  ind := by rw [h'.ind, h.ind, List.length_append, Nat.add_assoc]
  buf := by rw [h'.buf, h.ind, h.buf, writeAt_append]

theorem appends_rawbyte (m : Marshall) (x : UInt8) : Appends m (m.rawbyte x) [x] :=
  ⟨by simp, by simp⟩

/-- `rawbytes` appends its bytes, and touches nothing before them. -/
theorem appends_rawbytes (m : Marshall) (p : List UInt8) : Appends m (m.rawbytes p) p :=
  ⟨by simp, by simp⟩

/-- `pack` appends the four bytes of the word. -/
theorem appends_pack (m : Marshall) (x : Int32) : Appends m (m.pack x) (be32 x.toUInt32) := by
  unfold pack
  rw [shift_and_ff_24, shift_and_ff_16, shift_and_ff_8, Int32.toUInt32_and]
  have h0 : (x.toUInt32 &&& Int32.toUInt32 255).toUInt8 = x.toUInt32.toUInt8 :=
    and_ff_toUInt8 x.toUInt32
  rw [h0]
  exact (((appends_rawbyte m _).trans (appends_rawbyte _ _)).trans (appends_rawbyte _ _)).trans
    (appends_rawbyte _ _)

end Marshall

end Yfs
