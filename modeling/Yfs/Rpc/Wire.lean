import Yfs.Rpc.Moves

/-!
# Requests on the wire

What `dispatch` unpacks from a request on the wire is the header `call1`
packed, and the cursor then stands at the marshalled arguments; likewise
for replies. On this rests the invariant `Based`: every message on its
way to the server and every job is a copy of a request some client
packed, on a connection of that client.
-/

namespace Yfs

open Common

namespace Rpc

/-! ## Unpacking what was packed -/

theorem length_str (m : Marshall) : m.str.length = m.ind := length_bytesAt _ _ _

theorem length_framed {b : List UInt8} (h : 4 ≤ b.length) : (framed b).length = b.length := by
  rw [framed, List.length_append, length_be32, List.length_drop]
  omega

/-- Past its first four bytes, the memory of the receiver holds what the
sender marshalled. -/
theorem bytesAt_framed (mem : ℕ → UInt8) (m : Marshall) {i n : ℕ} (hi : 4 ≤ i)
    (hn : i + n ≤ m.ind) :
    bytesAt (Unmarshall.ofBytes mem (framed m.str)).buf i n = bytesAt m.buf i n := by
  have hlen : (framed m.str).length = m.ind := by
    rw [length_framed (by rw [length_str]; omega), length_str]
  simp only [Unmarshall.ofBytes, Unmarshall.ofBuf]
  rw [bytesAt_getD _ _ _ _ (by omega), framed, List.drop_append,
    List.drop_of_length_le (by rw [length_be32]; exact hi), List.nil_append, length_be32,
    List.drop_drop, Nat.add_sub_cancel' hi, Marshall.str, drop_bytesAt, take_bytesAt, Nat.zero_add,
    Nat.min_eq_left (by omega)]

theorem sz_framed (mem : ℕ → UInt8) (m : Marshall) (h : 4 ≤ m.ind) :
    (Unmarshall.ofBytes mem (framed m.str)).sz = m.ind := by
  simp only [Unmarshall.ofBytes, Unmarshall.ofBuf]
  rw [length_framed (by rw [length_str]; exact h), length_str]

variable {ι Ω : Type} {cfg : Config ι Ω}

theorem Request.ind_marshalled (q : Request) (mem : ℕ → UInt8) (n : UInt32) :
    (q.marshalled mem n).ind = rpcHeaderSz + (encAll q.ts q.args).length := by
  have h := Marshall.bytesAt_putAll (Marshall.new mem) q.ts q.args rfl
  rw [Request.marshalled, Marshall.packReqHeader_ind, h.1]

/-- The header and the arguments are where they belong. -/
theorem Request.bytesAt_marshalled (q : Request) (mem : ℕ → UInt8) (n : UInt32) :
    bytesAt (q.marshalled mem n).buf rpcSzSz 20 = (q.hdr n).enc ∧
      bytesAt (q.marshalled mem n).buf rpcHeaderSz (encAll q.ts q.args).length =
        encAll q.ts q.args := by
  obtain ⟨-, hbody, -⟩ := Marshall.bytesAt_putAll (Marshall.new mem) q.ts q.args rfl
  rw [Request.marshalled, Marshall.packReqHeader_buf]
  exact ⟨bytesAt_writeAt _ _ (q.hdr n).enc,
    (Marshall.bytesAt_packed _ (le_refl 24) _).trans hbody⟩

theorem Request.length_wire (q : Request) (cfg : Config ι Ω) (i : ι) :
    (q.wire cfg i).length = rpcHeaderSz + (encAll q.ts q.args).length := by
  have h := q.ind_marshalled cfg.mem (cfg.cltNonce i)
  have h24 : rpcHeaderSz = 24 := rfl
  rw [Request.wire, length_framed (by rw [length_str]; omega), length_str, h]

/-- **A request on the wire is unpacked as it was packed.** -/
theorem parse_wire (q : Request) (i : ι) (hlen : (q.wire cfg i).length ≤ maxPdu) :
    (Sys.parse cfg (q.wire cfg i)).2 = q.hdr (cfg.cltNonce i) ∧
      Unmarshall.PastHeader (Unmarshall.ofBytes cfg.mem (q.wire cfg i))
        (Sys.parse cfg (q.wire cfg i)).1 := by
  have hmax : maxPdu < 2 ^ 32 := by decide
  have h24 : rpcHeaderSz = 24 := rfl
  have hind := q.ind_marshalled cfg.mem (cfg.cltNonce i)
  have hsz := sz_framed cfg.mem (q.marshalled cfg.mem (cfg.cltNonce i)) (by omega)
  rw [q.length_wire cfg i] at hlen
  obtain ⟨hhdr, -⟩ := q.bytesAt_marshalled cfg.mem (cfg.cltNonce i)
  have hb := bytesAt_framed cfg.mem (q.marshalled cfg.mem (cfg.cltNonce i)) (i := rpcSzSz) (n := 20)
    le_rfl (by rw [hind, h24]; exact Nat.le_add_right 24 _)
  obtain ⟨hp, he⟩ := Unmarshall.unpackReqHeader_of_bytesAt
    (u := Unmarshall.ofBytes cfg.mem (q.wire cfg i)) (h := q.hdr (cfg.cltNonce i)) rfl
    (by rw [Request.wire, hsz]; omega) (by rw [Request.wire, hsz]; omega) (hb.trans hhdr)
  exact ⟨he, hp⟩

/-- **A reply on the wire is unpacked as it was packed.** -/
theorem unpackReplyHeader_framed (mem : ℕ → UInt8) (m : Marshall) (h : ReplyHeader)
    (hind : rpcHeaderSz ≤ m.ind) (hlen : (framed (m.packReplyHeader h).str).length ≤ maxPdu) :
    (Unmarshall.ofBytes mem (framed (m.packReplyHeader h).str)).unpackReplyHeader.2 = h ∧
      Unmarshall.PastHeader (Unmarshall.ofBytes mem (framed (m.packReplyHeader h).str))
        (Unmarshall.ofBytes mem (framed (m.packReplyHeader h).str)).unpackReplyHeader.1 := by
  have hmax : maxPdu < 2 ^ 32 := by decide
  have h24 : rpcHeaderSz = 24 := rfl
  have hind' : (m.packReplyHeader h).ind = m.ind := Marshall.packReplyHeader_ind m h
  have hsz := sz_framed mem (m.packReplyHeader h) (by omega)
  rw [length_framed (by rw [length_str]; omega), length_str] at hlen
  have hb := bytesAt_framed mem (m.packReplyHeader h) (i := rpcSzSz) (n := 8) le_rfl
    (by rw [hind']; exact le_trans (by decide) hind)
  have hhdr : bytesAt (m.packReplyHeader h).buf rpcSzSz 8 = h.enc := by
    rw [Marshall.packReplyHeader_buf]
    exact bytesAt_writeAt _ _ h.enc
  obtain ⟨hp, he⟩ := Unmarshall.unpackReplyHeader_of_bytesAt
    (u := Unmarshall.ofBytes mem (framed (m.packReplyHeader h).str)) (h := h) rfl
    (by rw [hsz]; omega) (by rw [hsz]; omega) (hb.trans hhdr)
  exact ⟨he, hp⟩

end Rpc

end Yfs
