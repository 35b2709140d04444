import Yfs.Marshall.Types

/-!
# Marshalling, there and back

`appends_put` says what `operator<<` appends, `reads_get` that
`operator>>` over those bytes gives the value back and moves past them.
The header is written by rewinding the cursor, into bytes no value
occupies, so that it does not matter whether it is packed before the
values or after them.
-/

namespace Yfs

open Common

/-! ## What `operator<<` appends -/

namespace Marshall

theorem appends_putUint (m : Marshall) (x : UInt32) : Appends m (m.putUint x) (be32 x) := by
  unfold putUint
  simp only [and_ff_toUInt8]
  exact (((appends_rawbyte m _).trans (appends_rawbyte _ _)).trans (appends_rawbyte _ _)).trans
    (appends_rawbyte _ _)

theorem and_ff_toUInt8_of_uint16 (x : UInt16) : (x &&& 0xff).toUInt8 = x.toUInt8 := by
  apply UInt8.toNat_inj.1
  have h : x.toNat &&& 255 = x.toNat % 2 ^ 8 := Nat.and_two_pow_sub_one_eq_mod x.toNat 8
  simp only [UInt16.toNat_toUInt8, UInt16.toNat_and, UInt16.reduceToNat, h]
  omega

theorem appends_putUshort (m : Marshall) (x : UInt16) : Appends m (m.putUshort x) (be16 x) := by
  unfold putUshort
  simp only [and_ff_toUInt8_of_uint16]
  exact (appends_rawbyte m _).trans (appends_rawbyte _ _)

theorem appends_putBasic (m : Marshall) (b : Basic) (x : b.Val) :
    Appends m (m.putBasic b x) (b.enc x) := by
  cases b with
  | uchar => exact appends_rawbyte m _
  | char => exact appends_rawbyte m _
  | ushort => exact appends_putUshort m x
  | short => exact appends_putUshort m _
  | uint => exact appends_putUint m x
  | int => exact appends_putUint m _
  | ulonglong => exact (appends_putUint m _).trans (appends_putUint _ _)
  | string => exact (appends_putUint m _).trans (appends_rawbytes _ _)

/-- A loop of writes appends what its iterations append. -/
theorem appends_foldl {α : Type} {f : Marshall → α → Marshall} {e : α → List UInt8}
    (hf : ∀ m x, Appends m (f m x) (e x)) (l : List α) (m : Marshall) :
    Appends m (l.foldl f m) (l.flatMap e) := by
  induction l generalizing m with
  | nil => exact Appends.refl m
  | cons x l ih => exact (hf m x).trans (ih _)

/-- **`operator<<` appends the encoding.** -/
theorem appends_put (m : Marshall) (t : Ty) (v : t.Val) : Appends m (m.put t v) (t.enc v) := by
  induction t generalizing m with
  | basic b => exact appends_putBasic m b v
  | attr =>
    exact (((appends_putUint m _).trans (appends_putUint _ _)).trans (appends_putUint _ _)).trans
      (appends_putUint _ _)
  | vector t ih => exact (appends_putUint m _).trans (appends_foldl (fun m x => ih m x) v _)
  | map k t ih =>
    exact (appends_putUint m _).trans
      (appends_foldl (fun m e => (appends_putBasic m k e.1).trans (ih _ e.2)) v.entries _)

theorem appends_putAll (m : Marshall) (ts : List Ty) (vs : Vals ts) :
    Appends m (m.putAll ts vs) (encAll ts vs) := by
  induction ts generalizing m with
  | nil => exact Appends.refl m
  | cons t ts ih => exact (appends_put m t vs.1).trans (ih _ vs.2)

end Marshall

/-! ## What `operator>>` reads back -/

namespace Unmarshall

/-- The cursor stands, with `ok()`, before the bytes `bs`. -/
structure At (u : Unmarshall) (bs : List UInt8) : Prop where
  ok : u.ok = true
  fits : u.ind + bs.length ≤ u.sz
  small : u.sz < 2 ^ 32
  bytes : bytesAt u.buf u.ind bs.length = bs

/-- `g` reads `bs` as the value `v` and moves past them. -/
def Reads {α : Type} (g : Unmarshall → Unmarshall × α) (bs : List UInt8) (v : α) : Prop :=
  ∀ u, At u bs → Advances u (g u).1 bs.length ∧ (g u).2 = v

theorem At.left {u : Unmarshall} {as bs : List UInt8} (h : At u (as ++ bs)) : At u as where
  ok := h.ok
  fits := by have := h.fits; rw [List.length_append] at this; omega
  small := h.small
  bytes := by
    have hb := h.bytes
    rw [List.length_append, bytesAt_add] at hb
    exact (List.append_inj hb (length_bytesAt _ _ _)).1

theorem At.right {u u' : Unmarshall} {as bs : List UInt8} (h : At u (as ++ bs))
    (ha : Advances u u' as.length) : At u' bs where
  ok := ha.ok.trans h.ok
  fits := by have := h.fits; rw [List.length_append] at this; rw [ha.ind, ha.sz]; omega
  small := ha.sz ▸ h.small
  bytes := by
    have hb := h.bytes
    rw [List.length_append, bytesAt_add] at hb
    rw [ha.buf, ha.ind]
    exact (List.append_inj hb (length_bytesAt _ _ _)).2

/-- Reads one after the other. -/
theorem Reads.bind {α β γ : Type} {g : Unmarshall → Unmarshall × α}
    {k : α → Unmarshall → Unmarshall × β} {f : α → β → γ} {as bs : List UInt8} {a : α} {b : β}
    (hg : Reads g as a) (hk : Reads (k a) bs b) :
    Reads (fun u => ((k (g u).2 (g u).1).1, f (g u).2 (k (g u).2 (g u).1).2)) (as ++ bs)
      (f a b) := by
  intro u hu
  obtain ⟨h1, e1⟩ := hg u hu.left
  obtain ⟨h2, e2⟩ := hk _ (hu.right h1)
  rw [List.length_append]
  simp only [e1]
  exact ⟨h1.trans h2, by rw [e2]⟩

theorem reads_getUint (x : UInt32) : Reads getUint (be32 x) x := fun _ hu =>
  ⟨(advances_word hu.fits).1, word_of_bytesAt hu.fits hu.bytes⟩

theorem reads_rawbyte (x : UInt8) : Reads rawbyte [x] (widen x) := by
  intro u hu
  have hb : u.buf u.ind = x := by simpa using hu.bytes
  have hlt : u.ind < u.sz := hu.fits
  exact ⟨(advances_rawbyte hlt).1, by rw [(advances_rawbyte hlt).2, hb]⟩

/-- The two-byte assembly of `operator>>(unsigned short)`. -/
theorem assemble16 (b1 b0 : UInt8) :
    (((widen b1 &&& 0xff) <<< 8).toUInt16.toUInt32 ||| (widen b0 &&& 0xff)).toUInt16 =
      join16 b1 b0 := by
  rw [widen_and_ff, widen_and_ff]
  apply UInt16.toNat_inj.1
  have h1 := b1.toNat_lt
  have h0 := b0.toNat_lt
  have hs : b1.toNat <<< 8 % 2 ^ 32 % 2 ^ 16 = b1.toNat <<< 8 := by
    rw [Nat.shiftLeft_eq]; omega
  simp only [UInt32.toNat_toUInt16, UInt32.toNat_or, UInt16.toNat_toUInt32,
    UInt32.toNat_shiftLeft, UInt8.toNat_toUInt32, UInt32.reduceToNat, Nat.reduceMod]
  rw [hs, shiftLeft_or_eq_add _ _ _ h0, toNat_join16]
  omega

/-- Widening a `short` and narrowing it again changes nothing. -/
theorem widen_int16 (x : Int16) : x.toInt32.toUInt32.toUInt16 = x.toUInt16 := by
  apply UInt16.toBitVec_inj.1
  apply BitVec.eq_of_getLsbD_eq
  intro i hi
  simp [BitVec.getLsbD_signExtend, hi]
  omega

/-- The sign bits `operator>>(short)` brings in by widening are cut off
again by the assignment. -/
theorem assemble16_signed (b1 b0 : UInt8) :
    (((widen b1 &&& 0xff) <<< 8).toUInt16.toInt16.toInt32.toUInt32 |||
      (widen b0 &&& 0xff)).toUInt16 = join16 b1 b0 := by
  rw [← assemble16 b1 b0, UInt32.toUInt16_or, UInt32.toUInt16_or, widen_int16,
    UInt16.toUInt16_toUInt32]
  rfl

theorem reads_getUshort (x : UInt16) : Reads getUshort (be16 x) x := by
  obtain ⟨b1, b0, he, hj⟩ := be16_eq x
  have h := Reads.bind
    (f := fun (a b : UInt32) => (((a &&& 0xff) <<< 8).toUInt16.toUInt32 ||| (b &&& 0xff)).toUInt16)
    (reads_rawbyte b1) (k := fun _ => rawbyte) (reads_rawbyte b0)
  rw [assemble16] at h
  rw [he, ← hj]
  exact h

theorem reads_getShort (x : Int16) : Reads getShort (be16 x.toUInt16) x := by
  obtain ⟨b1, b0, he, hj⟩ := be16_eq x.toUInt16
  have hx : x = (join16 b1 b0).toInt16 := by rw [hj]; rfl
  have h := Reads.bind
    (f := fun (a b : UInt32) =>
      (((a &&& 0xff) <<< 8).toUInt16.toInt16.toInt32.toUInt32 ||| (b &&& 0xff)).toUInt16.toInt16)
    (reads_rawbyte b1) (k := fun _ => rawbyte) (reads_rawbyte b0)
  rw [assemble16_signed] at h
  rw [he, hx]
  exact h

/-- The two halves of an `unsigned long long`. -/
theorem halves_eq (x : UInt64) :
    x.toUInt32.toUInt64 ||| (x >>> 32).toUInt32.toUInt64 <<< 32 = x := by
  apply UInt64.toNat_inj.1
  have hx := x.toNat_lt
  have hs : x.toNat / 2 ^ 32 % 2 ^ 32 = x.toNat / 2 ^ 32 := Nat.mod_eq_of_lt (by omega)
  have hl : (x.toNat / 2 ^ 32) <<< 32 % 2 ^ 64 = (x.toNat / 2 ^ 32) <<< 32 := by
    rw [Nat.shiftLeft_eq]; exact Nat.mod_eq_of_lt (by omega)
  simp only [UInt64.toNat_or, UInt32.toNat_toUInt64, UInt64.toNat_toUInt32,
    UInt64.toNat_shiftLeft, UInt64.toNat_shiftRight, UInt64.reduceToNat, Nat.reduceMod,
    Nat.shiftRight_eq_div_pow, hs, hl]
  rw [Nat.or_comm, shiftLeft_or_eq_add _ _ _ (Nat.mod_lt _ (by decide))]
  omega

theorem reads_getUlonglong (x : UInt64) :
    Reads getUlonglong (be32 (x >>> 32).toUInt32 ++ be32 x.toUInt32) x := by
  have h := Reads.bind (f := fun (h l : UInt32) => l.toUInt64 ||| h.toUInt64 <<< 32)
    (reads_getUint (x >>> 32).toUInt32) (k := fun _ => getUint) (reads_getUint x.toUInt32)
  rw [halves_eq] at h
  exact h

/-- A size below `2 ^ 32` survives the cast to `unsigned int`. -/
theorem toNat_ofNat32 {n : ℕ} (h : n < 2 ^ 32) : (UInt32.ofNat n).toNat = n :=
  UInt32.toNat_ofNat_of_lt h

theorem reads_getString {s : List UInt8} (hs : s.length < 2 ^ 32) :
    Reads getString (be32 (UInt32.ofNat s.length) ++ s) s := by
  intro u hu
  have hn : (UInt32.ofNat s.length).toNat = s.length := toNat_ofNat32 hs
  obtain ⟨h1, e1⟩ := reads_getUint _ u hu.left
  have hu' := hu.right h1
  obtain ⟨h2, e2⟩ := advances_rawbytes (u := u.getUint.1)
    (n := UInt32.ofNat s.length) [] (by rw [hn]; exact hu'.fits) hu'.small
  rw [hn] at h2 e2
  rw [getString, if_pos hu'.ok, e1, List.length_append]
  exact ⟨h1.trans h2, e2.trans hu'.bytes⟩

theorem reads_getBasic (b : Basic) (x : b.Val) (h : (b.enc x).length < 2 ^ 32) :
    Reads (fun u => u.getBasic b) (b.enc x) x := by
  cases b with
  | uchar =>
    intro u hu
    obtain ⟨h1, e1⟩ := reads_rawbyte x u hu
    exact ⟨h1, by simp only [getBasic, getUchar, e1, widen_toUInt8]⟩
  | char =>
    intro u hu
    obtain ⟨h1, e1⟩ := reads_rawbyte x.toUInt8 u hu
    exact ⟨h1, by simp only [getBasic, getChar, e1, widen_toUInt8]; rfl⟩
  | ushort => exact reads_getUshort x
  | short => exact reads_getShort x
  | uint => exact reads_getUint x
  | int =>
    intro u hu
    obtain ⟨h1, e1⟩ := reads_getUint x.toUInt32 u hu
    unfold getUint at h1 e1
    simp only [getBasic, getInt]
    exact ⟨h1, congrArg UInt32.toInt32 e1⟩
  | ulonglong => exact reads_getUlonglong x
  | string =>
    refine reads_getString ?_
    have hl : ((Basic.string).enc x).length = 4 + x.length := by simp [Basic.enc]
    omega

/-- No encoding is empty, so that a container's size is at most the
number of its bytes. -/
theorem Basic.length_enc_pos (b : Basic) (x : b.Val) : 0 < (b.enc x).length := by
  cases b with
  | string =>
    simp only [Basic.enc, List.length_append, length_be32]
    omega
  | _ => simp [Basic.enc, be16]

theorem Ty.length_enc_pos (t : Ty) (x : t.Val) : 0 < (t.enc x).length := by
  cases t with
  | basic b => exact Basic.length_enc_pos b x
  | attr => simp [Ty.enc]
  | vector t => simp only [Ty.enc, List.length_append, length_be32]; omega
  | map k t => simp only [Ty.enc, List.length_append, length_be32]; omega

theorem length_le_flatMap {α : Type} {e : α → List UInt8} (he : ∀ x, 0 < (e x).length)
    (l : List α) : l.length ≤ (l.flatMap e).length := by
  induction l with
  | nil => simp
  | cons x l ih =>
    have := he x
    rw [List.flatMap_cons, List.length_append, List.length_cons]
    omega

/-- A loop of reads reads what its iterations read. -/
theorem reads_getMany {α : Type} {g : Unmarshall → Unmarshall × α} {e : α → List UInt8}
    (l : List α) (hg : ∀ x ∈ l, Reads g (e x) x) : Reads (getMany g l.length) (l.flatMap e) l := by
  induction l with
  | nil => exact fun u _ => ⟨Advances.refl u, rfl⟩
  | cons x l ih =>
    exact Reads.bind (f := List.cons) (hg x List.mem_cons_self) (k := fun _ => getMany g l.length)
      (ih fun y hy => hg y (List.mem_cons_of_mem _ hy))

/-- An element's bytes are among the container's. -/
theorem length_enc_le_flatMap {α : Type} {e : α → List UInt8} {l : List α} {x : α}
    (hx : x ∈ l) : (e x).length ≤ (l.flatMap e).length := by
  induction l with
  | nil => cases hx
  | cons y l ih =>
    rw [List.flatMap_cons, List.length_append]
    rcases List.mem_cons.1 hx with rfl | hx
    · omega
    · have := ih hx
      omega

theorem reads_getAttr (a : Attr) : Reads getAttr (Ty.attr.enc a) a := by
  intro u hu
  have hlen : (Ty.attr.enc a).length = (be32 a.atime).length + (be32 a.mtime).length +
      (be32 a.ctime).length + (be32 a.size).length := by
    simp only [Ty.enc, List.length_append]
  simp only [Ty.enc, List.append_assoc] at hu
  obtain ⟨h1, e1⟩ := reads_getUint a.atime u hu.left
  have hu1 := hu.right h1
  obtain ⟨h2, e2⟩ := reads_getUint a.mtime _ hu1.left
  have hu2 := hu1.right h2
  obtain ⟨h3, e3⟩ := reads_getUint a.ctime _ hu2.left
  obtain ⟨h4, e4⟩ := reads_getUint a.size _ (hu2.right h3)
  have h := ((h1.trans h2).trans h3).trans h4
  rw [hlen]
  simp only [getAttr, e1, e2, e3, e4]
  exact ⟨h, trivial⟩

/-- **`operator>>` reads the encoding back.** -/
theorem reads_get (t : Ty) (v : t.Val) (h : (t.enc v).length < 2 ^ 32) :
    Reads (fun u => u.get t) (t.enc v) v := by
  induction t with
  | basic b => exact reads_getBasic b v h
  | attr => exact reads_getAttr v
  | vector t ih =>
    have hl : (v.flatMap t.enc).length < 2 ^ 32 := by
      simp only [Ty.enc, List.length_append] at h; omega
    have hn : v.length < 2 ^ 32 :=
      lt_of_le_of_lt (length_le_flatMap (Ty.length_enc_pos t) v) hl
    have hmany : Reads (getMany (fun u => u.get t) v.length) (v.flatMap t.enc) v :=
      reads_getMany v fun x hx => ih x (lt_of_le_of_lt (length_enc_le_flatMap hx) hl)
    refine Reads.bind (f := fun _ l => l) (reads_getUint (UInt32.ofNat v.length))
      (k := fun n => getMany (fun u => u.get t) n.toNat) ?_
    rw [toNat_ofNat32 hn]
    exact hmany
  | map k t ih =>
    let e : k.Val × t.Val → List UInt8 := fun x => k.enc x.1 ++ t.enc x.2
    have hl : (v.entries.flatMap e).length < 2 ^ 32 := by
      rw [Ty.enc, List.length_append] at h
      exact lt_of_le_of_lt (Nat.le_add_left _ _) h
    have hpos : ∀ x : k.Val × t.Val, 0 < (e x).length := fun x => by
      have := Ty.length_enc_pos t x.2
      simp only [e, List.length_append]; omega
    have hn : v.entries.length < 2 ^ 32 :=
      lt_of_le_of_lt (length_le_flatMap hpos v.entries) hl
    have hmany : Reads (getMany (fun u =>
        (((u.getBasic k).1.get t).1, ((u.getBasic k).2, ((u.getBasic k).1.get t).2)))
        v.entries.length) (v.entries.flatMap e) v.entries := by
      refine reads_getMany v.entries fun x hx => ?_
      have hx' : (e x).length < 2 ^ 32 := lt_of_le_of_lt (length_enc_le_flatMap hx) hl
      simp only [e, List.length_append] at hx'
      exact Reads.bind (f := fun a b => (a, b)) (reads_getBasic k x.1 (by omega))
        (k := fun _ u => u.get t) (ih x.2 (by omega))
    have hall := Reads.bind (f := fun _ l => l.foldl (fun d e => d.set e.1 e.2)
        (SortedMap.empty : SortedMap k.Val t.Val))
      (reads_getUint (UInt32.ofNat v.entries.length)) (k := fun n => getMany (fun u =>
        (((u.getBasic k).1.get t).1, ((u.getBasic k).2, ((u.getBasic k).1.get t).2))) n.toNat)
      (by rw [toNat_ofNat32 hn]; exact hmany)
    rw [SortedMap.foldl_set_eq] at hall
    exact hall

theorem reads_getAll (ts : List Ty) (vs : Vals ts) (h : (encAll ts vs).length < 2 ^ 32) :
    Reads (fun u => u.getAll ts) (encAll ts vs) vs := by
  induction ts with
  | nil => exact fun u _ => ⟨Advances.refl u, rfl⟩
  | cons t ts ih =>
    obtain ⟨v, vs⟩ := vs
    simp only [encAll, List.length_append] at h
    exact Reads.bind (f := fun a b => (a, b)) (reads_get t v (by omega))
      (k := fun _ u => u.getAll ts) (ih vs (by omega))

end Unmarshall

/-! ## Headers -/

/-- The bytes of a request header. -/
def ReqHeader.enc (h : ReqHeader) : List UInt8 :=
  be32 h.xid.toUInt32 ++ (be32 h.proc.toUInt32 ++ (be32 h.cltNonce ++ (be32 h.srvNonce ++
    be32 h.xidRep.toUInt32)))

/-- The bytes of a reply header. -/
def ReplyHeader.enc (h : ReplyHeader) : List UInt8 := be32 h.xid.toUInt32 ++ be32 h.ret.toUInt32

@[simp] theorem ReplyHeader.length_enc (h : ReplyHeader) : h.enc.length = 8 := rfl

namespace Marshall

@[simp] theorem packReqHeader_ind (m : Marshall) (h : ReqHeader) :
    (m.packReqHeader h).ind = m.ind := rfl

@[simp] theorem packReplyHeader_ind (m : Marshall) (h : ReplyHeader) :
    (m.packReplyHeader h).ind = m.ind := rfl

/-- The request header goes to the bytes after the size. -/
theorem packReqHeader_buf (m : Marshall) (h : ReqHeader) :
    (m.packReqHeader h).buf = writeAt m.buf rpcSzSz h.enc := by
  have h1 := appends_pack { m with ind := rpcSzSz } h.xid
  have h2 := appends_pack (pack { m with ind := rpcSzSz } h.xid) h.proc
  have h3 := appends_pack _ h.cltNonce.toInt32 |> h2.trans |> h1.trans
  have h4 := h3.trans ((appends_pack _ h.srvNonce.toInt32).trans (appends_pack _ h.xidRep))
  rw [packReqHeader, h4.buf]
  simp only [ReqHeader.enc, List.append_assoc]
  rfl

/-- The reply header likewise. -/
theorem packReplyHeader_buf (m : Marshall) (h : ReplyHeader) :
    (m.packReplyHeader h).buf = writeAt m.buf rpcSzSz h.enc := by
  have h2 := (appends_pack { m with ind := rpcSzSz } h.xid).trans (appends_pack _ h.ret)
  rw [packReplyHeader, h2.buf]
  rfl

end Marshall

namespace Unmarshall

theorem reads_unpack (x : Int32) : Reads unpack (be32 x.toUInt32) x := by
  intro u hu
  obtain ⟨h1, e1⟩ := reads_getUint x.toUInt32 u hu
  unfold getUint at h1 e1
  simp only [unpack]
  exact ⟨h1, congrArg UInt32.toInt32 e1⟩

/-- What a cursor that has passed the header looks like. -/
structure PastHeader (u u' : Unmarshall) : Prop where
  buf : u'.buf = u.buf
  sz : u'.sz = u.sz
  ok : u'.ok = u.ok
  ind : u'.ind = rpcHeaderSz

/-- A request header that is there is read back. -/
theorem unpackReqHeader_of_bytesAt {u : Unmarshall} {h : ReqHeader} (hok : u.ok = true)
    (hsz : rpcHeaderSz ≤ u.sz) (hsmall : u.sz < 2 ^ 32) (hb : bytesAt u.buf rpcSzSz 20 = h.enc) :
    PastHeader u u.unpackReqHeader.1 ∧ u.unpackReqHeader.2 = h := by
  have hu : At { u with ind := rpcSzSz } h.enc := ⟨hok, hsz, hsmall, hb⟩
  obtain ⟨a1, e1⟩ := reads_unpack h.xid _ hu.left
  have hu1 := hu.right a1
  obtain ⟨a2, e2⟩ := reads_unpack h.proc _ hu1.left
  have hu2 := hu1.right a2
  obtain ⟨a3, e3⟩ := reads_unpack h.cltNonce.toInt32 _ hu2.left
  have hu3 := hu2.right a3
  obtain ⟨a4, e4⟩ := reads_unpack h.srvNonce.toInt32 _ hu3.left
  obtain ⟨a5, e5⟩ := reads_unpack h.xidRep _ (hu3.right a4)
  have a := (((a1.trans a2).trans a3).trans a4).trans a5
  -- the fields are compared one by one: unfolding the whole cursor would run the reads
  refine ⟨⟨?_, ?_, ?_, rfl⟩, ?_⟩
  · simp only [unpackReqHeader]; exact a.buf
  · simp only [unpackReqHeader]; exact a.sz
  · simp only [unpackReqHeader]; exact a.ok
  · simp only [unpackReqHeader, e1, e2, e3, e4, e5]
    rfl

/-- And so is a reply header. -/
theorem unpackReplyHeader_of_bytesAt {u : Unmarshall} {h : ReplyHeader} (hok : u.ok = true)
    (hsz : rpcHeaderSz ≤ u.sz) (hsmall : u.sz < 2 ^ 32) (hb : bytesAt u.buf rpcSzSz 8 = h.enc) :
    PastHeader u u.unpackReplyHeader.1 ∧ u.unpackReplyHeader.2 = h := by
  have hu : At { u with ind := rpcSzSz } h.enc :=
    ⟨hok, le_trans (by decide : rpcSzSz + 8 ≤ rpcHeaderSz) hsz, hsmall, hb⟩
  obtain ⟨a1, e1⟩ := reads_unpack h.xid _ hu.left
  obtain ⟨a2, e2⟩ := reads_unpack h.ret _ (hu.right a1)
  have a := a1.trans a2
  refine ⟨⟨?_, ?_, ?_, rfl⟩, ?_⟩
  · simp only [unpackReplyHeader]; exact a.buf
  · simp only [unpackReplyHeader]; exact a.sz
  · simp only [unpackReplyHeader]; exact a.ok
  · simp only [unpackReplyHeader, e1, e2]

/-- Past a header, the values are read back to the end of the PDU. -/
theorem getAll_of_pastHeader {u u' : Unmarshall} {ts : List Ty} {vs : Vals ts}
    (hp : PastHeader u u') (hok : u.ok = true) (hsmall : u.sz < 2 ^ 32)
    (hsz : u.sz = rpcHeaderSz + (encAll ts vs).length)
    (hb : bytesAt u.buf rpcHeaderSz (encAll ts vs).length = encAll ts vs) :
    (u'.getAll ts).2 = vs ∧ (u'.getAll ts).1.okdone = true := by
  have hat : At u' (encAll ts vs) :=
    ⟨hp.ok.trans hok, by rw [hp.ind, hp.sz, hsz], hp.sz ▸ hsmall, by rw [hp.buf, hp.ind, hb]⟩
  obtain ⟨ha, he⟩ := reads_getAll ts vs (by omega) u' hat
  refine ⟨he, ?_⟩
  simp only [okdone, ha.ok, ha.ind, ha.sz, hat.ok, hp.ind, hp.sz, hsz, Bool.true_and,
    beq_self_eq_true]

end Unmarshall

/-! ## The round trip -/

/-- The receiver of a request: unpack the header, extract values of the
types `ts`, and ask `okdone()`. -/
def extractReq (u : Unmarshall) (ts : List Ty) : ReqHeader × Vals ts × Bool :=
  let r := u.unpackReqHeader.1.getAll ts
  (u.unpackReqHeader.2, r.2, r.1.okdone)

/-- The receiver of a reply. -/
def extractReply (u : Unmarshall) (ts : List Ty) : ReplyHeader × Vals ts × Bool :=
  let r := u.unpackReplyHeader.1.getAll ts
  (u.unpackReplyHeader.2, r.2, r.1.okdone)

namespace Marshall

variable {ts : List Ty} {vs : Vals ts}

/-- The buffer as `take_buf` hands it to the reader. -/
def takeBuf (m : Marshall) : Unmarshall := .ofBuf m.buf m.ind

/-- A message laid out as header and values is extracted as them. -/
theorem extractReq_eq {m : Marshall} {h : ReqHeader}
    (hfit : rpcHeaderSz + (encAll ts vs).length ≤ maxPdu)
    (hind : m.ind = rpcHeaderSz + (encAll ts vs).length)
    (hhdr : bytesAt m.buf rpcSzSz 20 = h.enc)
    (hbody : bytesAt m.buf rpcHeaderSz (encAll ts vs).length = encAll ts vs) :
    extractReq m.takeBuf ts = (h, vs, true) := by
  have hpdu : maxPdu < 2 ^ 32 := by decide
  have hsmall : m.ind < 2 ^ 32 := by omega
  obtain ⟨hp, he⟩ := Unmarshall.unpackReqHeader_of_bytesAt (u := m.takeBuf) (h := h) rfl
    (show rpcHeaderSz ≤ m.ind by omega) hsmall hhdr
  obtain ⟨hv, hd⟩ := Unmarshall.getAll_of_pastHeader hp rfl hsmall hind hbody
  simp only [extractReq, he, hv, hd]

theorem extractReply_eq {m : Marshall} {h : ReplyHeader}
    (hfit : rpcHeaderSz + (encAll ts vs).length ≤ maxPdu)
    (hind : m.ind = rpcHeaderSz + (encAll ts vs).length)
    (hhdr : bytesAt m.buf rpcSzSz 8 = h.enc)
    (hbody : bytesAt m.buf rpcHeaderSz (encAll ts vs).length = encAll ts vs) :
    extractReply m.takeBuf ts = (h, vs, true) := by
  have hpdu : maxPdu < 2 ^ 32 := by decide
  have hsmall : m.ind < 2 ^ 32 := by omega
  obtain ⟨hp, he⟩ := Unmarshall.unpackReplyHeader_of_bytesAt (u := m.takeBuf) (h := h)
    rfl (show rpcHeaderSz ≤ m.ind by omega) hsmall hhdr
  obtain ⟨hv, hd⟩ := Unmarshall.getAll_of_pastHeader hp rfl hsmall hind hbody
  simp only [extractReply, he, hv, hd]

/-- The values occupy the bytes past the header, whatever is written
before them in the header's place. -/
theorem bytesAt_putAll (m : Marshall) (ts : List Ty) (vs : Vals ts) (hm : m.ind = rpcHeaderSz) :
    (m.putAll ts vs).ind = rpcHeaderSz + (encAll ts vs).length ∧
      bytesAt (m.putAll ts vs).buf rpcHeaderSz (encAll ts vs).length = encAll ts vs ∧
      ∀ n, rpcSzSz + n ≤ rpcHeaderSz →
        bytesAt (m.putAll ts vs).buf rpcSzSz n = bytesAt m.buf rpcSzSz n := by
  have h := appends_putAll m ts vs
  rw [h.ind, h.buf, hm]
  exact ⟨rfl, bytesAt_writeAt _ _ _, fun n hn => bytesAt_writeAt_of_le _ _ hn⟩

/-- A header packed after the values does not touch them. -/
theorem bytesAt_packed (f : ℕ → UInt8) {hdr : List UInt8} (hl : rpcSzSz + hdr.length ≤ rpcHeaderSz)
    (n : ℕ) : bytesAt (writeAt f rpcSzSz hdr) rpcHeaderSz n = bytesAt f rpcHeaderSz n :=
  bytesAt_writeAt_of_ge f hdr hl

/-- **Marshalling round trip.** Values appended by `operator<<` and a
header packed before or after them are what `unpack_req_header` or
`unpack_reply_header` and `operator>>` give back, with `okdone()` at the
end, for every message that fits in a PDU. -/
theorem extract_marshalled (mem : ℕ → UInt8) (h : ReqHeader) (rh : ReplyHeader) (ts : List Ty)
    (vs : Vals ts) (hfit : ((new mem).putAll ts vs).ind ≤ maxPdu) :
    extractReq (((new mem).putAll ts vs).packReqHeader h).takeBuf ts = (h, vs, true) ∧
    extractReq (((new mem).packReqHeader h).putAll ts vs).takeBuf ts = (h, vs, true) ∧
    extractReply (((new mem).putAll ts vs).packReplyHeader rh).takeBuf ts = (rh, vs, true) ∧
    extractReply (((new mem).packReplyHeader rh).putAll ts vs).takeBuf ts = (rh, vs, true) := by
  obtain ⟨hind, hbody, -⟩ := bytesAt_putAll (new mem) ts vs rfl
  obtain ⟨hindq, hbodyq, hhdrq⟩ := bytesAt_putAll ((new mem).packReqHeader h) ts vs rfl
  obtain ⟨hindr, hbodyr, hhdrr⟩ := bytesAt_putAll ((new mem).packReplyHeader rh) ts vs rfl
  rw [hind] at hfit
  refine ⟨extractReq_eq hfit hind ?_ ?_, extractReq_eq hfit hindq ?_ hbodyq,
    extractReply_eq hfit hind ?_ ?_, extractReply_eq hfit hindr ?_ hbodyr⟩
  · rw [packReqHeader_buf]; exact bytesAt_writeAt _ _ h.enc
  · rw [packReqHeader_buf, bytesAt_packed _ (le_refl 24)]; exact hbody
  · rw [hhdrq 20 (by decide), packReqHeader_buf]; exact bytesAt_writeAt _ _ h.enc
  · rw [packReplyHeader_buf]; exact bytesAt_writeAt _ _ rh.enc
  · rw [packReplyHeader_buf, bytesAt_packed _ (by rw [ReplyHeader.length_enc]; decide)]; exact hbody
  · rw [hhdrr 8 (by decide), packReplyHeader_buf]; exact bytesAt_writeAt _ _ rh.enc

/-- A message of an `int`, an `unsigned long long` and a vector of
strings, with its header packed first. -/
theorem extract_marshalled_hallo :
    ((new fun _ => 0).putAll [.basic .int, .basic .ulonglong, .vector (.basic .string)]
      (12345, 1223344455, [[104, 97], [0]], ())).ind ≤ maxPdu ∧
    extractReq (((new fun _ => 0).packReqHeader ⟨1, 2, 3, 4, 5⟩).putAll
        [.basic .int, .basic .ulonglong, .vector (.basic .string)]
        (12345, 1223344455, [[104, 97], [0]], ())).takeBuf
        [.basic .int, .basic .ulonglong, .vector (.basic .string)] =
      (⟨1, 2, 3, 4, 5⟩, (12345, 1223344455, [[104, 97], [0]], ()), true) :=
  ⟨by decide, (extract_marshalled (fun _ => 0) ⟨1, 2, 3, 4, 5⟩ ⟨1, 0⟩
    [.basic .int, .basic .ulonglong, .vector (.basic .string)]
    (12345, 1223344455, [[104, 97], [0]], ()) (by decide)).2.1⟩

end Marshall

end Yfs
