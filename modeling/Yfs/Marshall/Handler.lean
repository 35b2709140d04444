import Yfs.Marshall.RoundTrip
import Yfs.Marshall.Bounds

/-!
# Registered handlers

`rpcs::reg` wraps a method into a handler whose `fn` extracts the
arguments, asks `okdone()`, and calls the method only then. The
templates differ in the number of arguments and in nothing else, so the
argument types are a list here. That a request is accepted exactly when
its body is the marshalling of some arguments is canonicity: extraction
that ends with `ok()` has read the encoding of what it returns.
-/

namespace Yfs

open Common

/-- `rpc_const::unmarshal_args_failure`. -/
def unmarshalArgsFailure : Int32 := -2

/-- A method registered with `rpcs::reg`. What its result depends on
besides the arguments, the state of its object and the interleaving with
other threads, is the parameter `w`. -/
structure Handler (Ω : Type) where
  /-- `A1`, …, `An`. -/
  args : List Ty
  /-- `R`. -/
  ret : Ty
  /-- `(sob->*meth)(a1, …, an, r)`: the returned `int`, and `r`. -/
  meth : Ω → Vals args → Int32 × ret.Val

/-- What one run of `handler::fn` did. -/
structure FnResult (args : List Ty) where
  /-- The arguments of each call of the method. -/
  invoked : List (Vals args)
  /-- The value returned. -/
  ret : Int32
  /-- The reply. -/
  rep : Marshall

/-- `h1::fn`. -/
def Handler.fn {Ω : Type} (h : Handler Ω) (w : Ω) (args : Unmarshall) (ret : Marshall) :
    FnResult h.args :=
  let a := args.getAll h.args
  if !a.1.okdone then ⟨[], unmarshalArgsFailure, ret⟩
  else
    let b := h.meth w a.2
    ⟨[a.2], b.1, ret.put h.ret b.2⟩

namespace Unmarshall

/-! ## Canonicity -/

/-- No string length among the accesses reaches `2 ^ 31`. -/
def ShortLens (u : Unmarshall) : Prop := ∀ a ∈ u.trace, a.range = true → a.len < 2 ^ 31

/-- Nothing recorded is lost, and `ok()` does not come back. -/
def Grows (u v : Unmarshall) : Prop :=
  (v.ok = true → u.ok = true) ∧ ∀ a ∈ u.trace, a ∈ v.trace

theorem respected_grows : Respected Grows where
  refl _ := ⟨id, fun _ => id⟩
  trans h h' := ⟨fun hw => h.1 (h'.1 hw), fun a ha => h'.2 a (h.2 a ha)⟩
  byte u := by
    refine ⟨ok_of_rawbyte, fun a ha => ?_⟩
    unfold rawbyte
    split <;> exact List.mem_cons_of_mem _ ha
  range u n hok := by
    refine ⟨fun _ => hok, fun a ha => ?_⟩
    unfold rawbytes
    split <;> exact List.mem_cons_of_mem _ ha

theorem ShortLens.of_grows {u v : Unmarshall} (hv : ShortLens v) (h : Grows u v) : ShortLens u :=
  fun a ha => hv a (h.2 a ha)

/-- Where `g` ends with `ok()`, it has read the encoding of what it
returns. -/
def Canonical {α : Type} (g : Unmarshall → Unmarshall × α) (e : α → List UInt8) : Prop :=
  ∀ u, u.ind ≤ u.sz → u.sz < 2 ^ 31 → ShortLens (g u).1 → (g u).1.ok = true →
    At u (e (g u).2) ∧ Advances u (g u).1 (e (g u).2).length

/-- Bytes that are there in turn are there as a whole. -/
theorem At.append {u u' : Unmarshall} {as bs : List UInt8} (h : At u as)
    (ha : Advances u u' as.length) (h' : At u' bs) : At u (as ++ bs) where
  ok := h.ok
  fits := by
    have := h'.fits
    rw [ha.ind, ha.sz] at this
    rw [List.length_append]; omega
  small := h.small
  bytes := by
    have := h'.bytes
    rw [ha.buf, ha.ind] at this
    rw [List.length_append, bytesAt_add, h.bytes, this]

/-- Canonical reads one after the other, the value of the first deciding
what the second does. -/
theorem Canonical.bind {α β γ : Type} {g : Unmarshall → Unmarshall × α}
    {k : α → Unmarshall → Unmarshall × β} {f : α → β → γ} {e : α → List UInt8}
    {d : β → List UInt8} {c : γ → List UInt8} (hg : Canonical g e)
    (hk : ∀ a, Canonical (k a) d) (hgrow : ∀ a u, Grows u (k a u).1)
    (he : ∀ u, e (g u).2 ++ d (k (g u).2 (g u).1).2 = c (f (g u).2 (k (g u).2 (g u).1).2)) :
    Canonical (fun u => ((k (g u).2 (g u).1).1, f (g u).2 (k (g u).2 (g u).1).2)) c := by
  intro u hin hsz hlens hok
  dsimp only at hlens hok ⊢
  have hgr := hgrow (g u).2 (g u).1
  obtain ⟨h1, a1⟩ := hg u hin hsz (hlens.of_grows hgr) (hgr.1 hok)
  have hin' : (g u).1.ind ≤ (g u).1.sz := by rw [a1.ind, a1.sz]; exact h1.fits
  obtain ⟨h2, a2⟩ := hk (g u).2 (g u).1 hin' (a1.sz ▸ hsz) hlens hok
  rw [← he u, List.length_append]
  exact ⟨h1.append a1 h2, a1.trans a2⟩

/-- A byte that was read. -/
theorem rawbyte_canonical {u : Unmarshall} (hsz : u.sz < 2 ^ 31) (h : u.rawbyte.1.ok = true) :
    At u [u.buf u.ind] ∧ Advances u u.rawbyte.1 1 ∧ u.rawbyte.2 = widen (u.buf u.ind) := by
  have hlt : u.ind < u.sz := by
    by_contra hge
    rw [rawbyte_ok_of_ge (by omega)] at h
    cases h
  exact ⟨⟨ok_of_rawbyte h, hlt, by omega, rfl⟩, advances_rawbyte hlt⟩

/-- Two bytes that were read. -/
theorem rawbyte_canonical_two {u : Unmarshall} (hsz : u.sz < 2 ^ 31)
    (h : u.rawbyte.1.rawbyte.1.ok = true) :
    At u [u.buf u.ind, u.buf (u.ind + 1)] ∧ Advances u u.rawbyte.1.rawbyte.1 2 ∧
      u.rawbyte.2 = widen (u.buf u.ind) ∧ u.rawbyte.1.rawbyte.2 = widen (u.buf (u.ind + 1)) := by
  obtain ⟨h1, a1, e1⟩ := rawbyte_canonical hsz (ok_of_rawbyte h)
  obtain ⟨h0, a0, e0⟩ := rawbyte_canonical (rawbyte_sz u ▸ hsz) h
  rw [a1.buf, a1.ind] at h0 e0
  exact ⟨h1.append a1 h0, a1.trans a0, e1, e0⟩

theorem canonical_word : Canonical word be32 := by
  intro u _ hsz _ hok
  obtain ⟨ho, hi⟩ := word_ok hok
  obtain ⟨ha, he⟩ := advances_word hi
  rw [he, be32_join32]
  exact ⟨⟨ho, hi, by omega, rfl⟩, ha⟩

theorem canonical_getUint : Canonical getUint be32 := canonical_word

/-- A string is its length and its bytes. -/
theorem canonical_getString : Canonical getString (Basic.enc .string) := by
  intro u hin hsz hlens hok
  have hok1 : u.getUint.1.ok = true := by
    by_contra hc
    simp only [getString, hc, if_false] at hok
  simp only [getString, hok1, if_true] at hlens hok ⊢
  have hgr : Grows u.getUint.1 (u.getUint.1.rawbytes [] u.getUint.2).1 :=
    respected_grows.range _ _ hok1
  obtain ⟨h1, a1⟩ := canonical_getUint u hin hsz (hlens.of_grows hgr) hok1
  have hn : u.getUint.2.toNat < 2 ^ 31 := by
    unfold ShortLens rawbytes at hlens
    split at hlens
    · exact hlens _ List.mem_cons_self rfl
    · exact hlens _ List.mem_cons_self rfl
  have hfit1 := h1.fits
  rw [← a1.ind, ← a1.sz] at hfit1
  have hsz1 : u.getUint.1.sz < 2 ^ 31 := a1.sz ▸ hsz
  have hfit : u.getUint.1.ind + u.getUint.2.toNat ≤ u.getUint.1.sz := by
    by_contra hgt
    have hmod : (u.getUint.1.ind + u.getUint.2.toNat) % 2 ^ 32 =
        u.getUint.1.ind + u.getUint.2.toNat := Nat.mod_eq_of_lt (by omega)
    rw [rawbytes, hmod, if_pos (by omega)] at hok
    cases hok
  obtain ⟨a2, e2⟩ := advances_rawbytes (n := u.getUint.2) [] hfit (by omega)
  have hlen : (u.getUint.1.rawbytes [] u.getUint.2).2.length = u.getUint.2.toNat := by
    rw [e2, length_bytesAt]
  have henc : Basic.enc .string (u.getUint.1.rawbytes [] u.getUint.2).2 =
      be32 u.getUint.2 ++ (u.getUint.1.rawbytes [] u.getUint.2).2 := by
    simp only [Basic.enc]
    rw [hlen, UInt32.ofNat_toNat]
  have hat : At u.getUint.1 (u.getUint.1.rawbytes [] u.getUint.2).2 :=
    ⟨hok1, by rw [hlen]; exact hfit, by omega, by rw [hlen, e2]⟩
  rw [henc, List.length_append, hlen]
  exact ⟨h1.append a1 hat, a1.trans a2⟩

/-- The halves of an `unsigned long long` put together are its halves. -/
theorem halves_join (h l : UInt32) :
    ((l.toUInt64 ||| h.toUInt64 <<< 32) >>> 32).toUInt32 = h ∧
      (l.toUInt64 ||| h.toUInt64 <<< 32).toUInt32 = l := by
  have hh := h.toNat_lt
  have hl := l.toNat_lt
  have hx : (l.toUInt64 ||| h.toUInt64 <<< 32).toNat = h.toNat * 2 ^ 32 + l.toNat := by
    have hs : h.toNat <<< 32 % 2 ^ 64 = h.toNat <<< 32 := by
      rw [Nat.shiftLeft_eq]; exact Nat.mod_eq_of_lt (by omega)
    simp only [UInt64.toNat_or, UInt32.toNat_toUInt64, UInt64.toNat_shiftLeft,
      UInt64.reduceToNat, Nat.reduceMod, hs]
    rw [Nat.or_comm, shiftLeft_or_eq_add _ _ _ hl]
  constructor
  · apply UInt32.toNat_inj.1
    rw [UInt64.toNat_toUInt32, UInt64.toNat_shiftRight, hx, Nat.shiftRight_eq_div_pow]
    simp only [UInt64.reduceToNat, Nat.reduceMod]
    omega
  · apply UInt32.toNat_inj.1
    rw [UInt64.toNat_toUInt32, hx]
    omega

theorem canonical_getBasic (b : Basic) : Canonical (fun u => u.getBasic b) b.enc := by
  cases b with
  | uchar =>
    intro u _ hsz _ hok
    obtain ⟨h, a, e⟩ := rawbyte_canonical hsz hok
    simp only [getBasic, getUchar, Basic.enc, e, widen_toUInt8]
    exact ⟨h, a⟩
  | char =>
    intro u _ hsz _ hok
    obtain ⟨h, a, e⟩ := rawbyte_canonical hsz hok
    simp only [getBasic, getChar, Basic.enc, e, widen_toUInt8]
    exact ⟨h, a⟩
  | ushort =>
    intro u _ hsz _ hok
    obtain ⟨h, a, e1, e0⟩ := rawbyte_canonical_two hsz hok
    simp only [getBasic, getUshort, Basic.enc, e1, e0, assemble16, be16_join16]
    exact ⟨h, a⟩
  | short =>
    intro u _ hsz _ hok
    obtain ⟨h, a, e1, e0⟩ := rawbyte_canonical_two hsz hok
    have he : (join16 (u.buf u.ind) (u.buf (u.ind + 1))).toInt16.toUInt16 =
        join16 (u.buf u.ind) (u.buf (u.ind + 1)) := rfl
    simp only [getBasic, getShort, Basic.enc, e1, e0, assemble16_signed, he, be16_join16]
    exact ⟨h, a⟩
  | uint => exact canonical_word
  | int =>
    intro u hin hsz hlens hok
    simp only [getBasic, getInt] at hlens hok ⊢
    exact canonical_word u hin hsz hlens hok
  | ulonglong =>
    refine Canonical.bind (e := be32) (d := be32) canonical_getUint
      (k := fun _ => getUint) (f := fun (h l : UInt32) => l.toUInt64 ||| h.toUInt64 <<< 32)
      (fun _ => canonical_getUint) (fun _ => word_rel respected_grows) fun u => ?_
    simp only [Basic.enc, halves_join]
  | string => exact canonical_getString

/-- Two words one after the other. -/
def getPair (u : Unmarshall) : Unmarshall × UInt32 × UInt32 :=
  let a := u.getUint
  let b := a.1.getUint
  (b.1, (a.2, b.2))

theorem grows_getUint (u : Unmarshall) : Grows u u.getUint.1 := word_rel respected_grows u

theorem grows_getPair (u : Unmarshall) : Grows u u.getPair.1 := by
  simp only [getPair]
  exact respected_grows.trans (grows_getUint u) (grows_getUint u.getUint.1)

theorem canonical_getPair : Canonical getPair (fun p => be32 p.1 ++ be32 p.2) :=
  Canonical.bind (f := Prod.mk) canonical_getUint (k := fun _ => getUint)
    (fun _ => canonical_getUint) (fun _ => word_rel respected_grows) fun _ => rfl

theorem getAttr_eq (u : Unmarshall) : u.getAttr =
    (u.getPair.1.getPair.1,
      Attr.mk u.getPair.2.1 u.getPair.2.2 u.getPair.1.getPair.2.1 u.getPair.1.getPair.2.2) := by
  simp only [getAttr, getPair]

/-- The four fields of an `extent_protocol::attr`: two pairs of words. -/
theorem canonical_getAttr : Canonical getAttr (Ty.enc .attr) := by
  have h := Canonical.bind (f := fun p q : UInt32 × UInt32 => Attr.mk p.1 p.2 q.1 q.2)
    (c := Ty.enc .attr) canonical_getPair (k := fun _ => getPair) (fun _ => canonical_getPair)
    (fun _ => grows_getPair) fun u => by
      simp only [Ty.enc, List.append_assoc]
  intro u
  rw [getAttr_eq]
  exact h u

/-- A vector is the bytes of its elements in turn. -/
theorem canonical_getMany {α : Type} {g : Unmarshall → Unmarshall × α} {e : α → List UInt8}
    (hg : Canonical g e) (hgrow : ∀ u, Grows u (g u).1) (n : ℕ) :
    Canonical (getMany g n) (fun l => l.flatMap e) := by
  induction n with
  | zero => exact fun u hin hsz _ hok => ⟨⟨hok, hin, by omega, rfl⟩, Advances.refl u⟩
  | succ n ih =>
    exact Canonical.bind (f := List.cons) hg (k := fun _ => getMany g n) (fun _ => ih)
      (fun _ => getMany_rel respected_grows hgrow n) fun u => rfl

theorem length_getMany {α : Type} (g : Unmarshall → Unmarshall × α) (n : ℕ) (u : Unmarshall) :
    (getMany g n u).2.length = n := by
  induction n generalizing u with
  | zero => rfl
  | succ n ih => simp [getMany, ih]

/-- **Extraction is canonical**, for types without a `std::map`. The keys
of a map may come in any order, and come out in one. -/
theorem canonical_get (t : Ty) (ht : t.noMap = true) : Canonical (fun u => u.get t) t.enc := by
  induction t with
  | basic b => exact canonical_getBasic b
  | attr => exact canonical_getAttr
  | vector t ih =>
    have hgrow := get_rel respected_grows t
    refine Canonical.bind (e := be32) (d := fun l => l.flatMap t.enc) canonical_getUint
      (k := fun n => getMany (fun u => u.get t) n.toNat) (f := fun _ l => l)
      (fun n => canonical_getMany (ih ht) hgrow n.toNat)
      (fun n => getMany_rel respected_grows hgrow n.toNat) fun u => ?_
    simp only [Ty.enc, length_getMany, UInt32.ofNat_toNat]
  | map k t => cases ht

/-- **Only a marshalling is accepted**, for a tuple without maps. -/
theorem canonical_getAll (ts : List Ty) (hts : ∀ t ∈ ts, t.noMap = true) :
    Canonical (fun u => u.getAll ts) (encAll ts) := by
  induction ts with
  | nil => exact fun u hin hsz _ hok => ⟨⟨hok, hin, by omega, rfl⟩, Advances.refl u⟩
  | cons t ts ih =>
    exact Canonical.bind (f := fun a b => (a, b)) (canonical_get t (hts t List.mem_cons_self))
      (k := fun _ u => u.getAll ts) (fun _ => ih fun t' ht' => hts t' (List.mem_cons_of_mem _ ht'))
      (fun _ => getAll_rel respected_grows ts) fun u => rfl

/-- A header of any content is passed, when its bytes are there. -/
theorem pastHeader_unpackReqHeader {u : Unmarshall} (hsz : rpcHeaderSz ≤ u.sz) :
    PastHeader u u.unpackReqHeader.1 := by
  have hs : 24 ≤ u.sz := hsz
  have a1 := (advances_word (u := { u with ind := rpcSzSz }) (by simp only [rpcSzSz]; omega)).1
  have next : ∀ {v : Unmarshall} {n : ℕ}, Advances { u with ind := rpcSzSz } v n → n ≤ 16 →
      Advances { u with ind := rpcSzSz } v.word.1 (n + 4) := by
    intro v n hv hn
    refine hv.trans (advances_word ?_).1
    rw [hv.ind, hv.sz]
    simp only [rpcSzSz]
    omega
  have a5 := next (next (next (next a1 (by decide)) (by decide)) (by decide)) (by decide)
  refine ⟨?_, ?_, ?_, rfl⟩
  · simp only [unpackReqHeader, unpack]; exact a5.buf
  · simp only [unpackReqHeader, unpack]; exact a5.sz
  · simp only [unpackReqHeader, unpack]; exact a5.ok

/-- Past the header of a PDU, the memory holds its body. -/
theorem bytesAt_ofBytes (mem : ℕ → UInt8) {hdr : List UInt8} (body : List UInt8)
    (hhdr : hdr.length = rpcHeaderSz) :
    bytesAt (ofBytes mem (hdr ++ body)).buf rpcHeaderSz body.length = body := by
  simp only [ofBytes, ofBuf, ← hhdr]
  rw [bytesAt_getD _ _ _ _ (by rw [List.length_append]), List.drop_left, List.take_length]

/-- **`okdone()` at the end says that the body was a marshalling.** -/
theorem okdone_getAll_iff (mem : ℕ → UInt8) {hdr body : List UInt8} {ts : List Ty}
    (hhdr : hdr.length = rpcHeaderSz) (hbody : body.length ≤ maxPdu)
    (hts : ∀ t ∈ ts, t.noMap = true)
    (hlens : ShortLens ((ofBytes mem (hdr ++ body)).unpackReqHeader.1.getAll ts).1) (a : Vals ts) :
    (((ofBytes mem (hdr ++ body)).unpackReqHeader.1.getAll ts).1.okdone = true ∧
      ((ofBytes mem (hdr ++ body)).unpackReqHeader.1.getAll ts).2 = a) ↔ body = encAll ts a := by
  have hsz : (ofBytes mem (hdr ++ body)).sz = rpcHeaderSz + body.length := by
    simp only [ofBytes, ofBuf, List.length_append, hhdr]
  have hpast := pastHeader_unpackReqHeader (u := ofBytes mem (hdr ++ body)) (by omega)
  have hbytes := bytesAt_ofBytes mem body hhdr
  have hmax : rpcHeaderSz + maxPdu < 2 ^ 31 := by decide
  generalize (ofBytes mem (hdr ++ body)).unpackReqHeader.1 = v at *
  constructor
  · rintro ⟨hdone, rfl⟩
    simp only [okdone, Bool.and_eq_true, beq_iff_eq] at hdone
    obtain ⟨hok, hend⟩ := hdone
    obtain ⟨hat, hadv⟩ := canonical_getAll ts hts v (by rw [hpast.ind, hpast.sz, hsz]; omega)
      (by rw [hpast.sz, hsz]; omega) hlens hok
    dsimp only at hat hadv
    have hlen : (encAll ts (v.getAll ts).2).length = body.length := by
      rw [hadv.ind, hadv.sz, hpast.ind, hpast.sz, hsz] at hend
      omega
    rw [← hat.bytes, hlen, hpast.buf, hpast.ind, hbytes]
  · rintro rfl
    obtain ⟨he, hd⟩ := getAll_of_pastHeader hpast rfl (by omega) hsz hbytes
    exact ⟨hd, he⟩

end Unmarshall

/-- What a client marshals is the encoding of its arguments. -/
theorem Marshall.body_putAll (mem : ℕ → UInt8) (ts : List Ty) (vs : Vals ts) :
    ((Marshall.new mem).putAll ts vs).body = encAll ts vs := by
  obtain ⟨hind, hbody, -⟩ := Marshall.bytesAt_putAll (Marshall.new mem) ts vs rfl
  rw [Marshall.body, hind, Nat.add_sub_cancel_left, hbody]

namespace Handler

open Unmarshall

variable {Ω : Type}

/-- **A handler accepts exactly the argument grammar.** Given a request
body of at most `MAX_PDU` bytes, none of whose string lengths reaches
`2 ^ 31`, the method is called exactly when the body is the marshalling
of some arguments, and then once, with them; otherwise the reply stays
empty and the value returned is `unmarshal_args_failure`. -/
theorem fn_accepts (h : Handler Ω) (w : Ω) (mem mem' mem'' : ℕ → UInt8) {hdr body : List UInt8}
    (hhdr : hdr.length = rpcHeaderSz) (hbody : body.length ≤ maxPdu)
    (hts : ∀ t ∈ h.args, t.noMap = true)
    (hlens : ShortLens ((ofBytes mem (hdr ++ body)).unpackReqHeader.1.getAll h.args).1) :
    ((h.fn w (ofBytes mem (hdr ++ body)).unpackReqHeader.1 (.new mem')).invoked ≠ [] ↔
      ∃ a, body = ((Marshall.new mem'').putAll h.args a).body) ∧
    (∀ a, body = ((Marshall.new mem'').putAll h.args a).body →
      h.fn w (ofBytes mem (hdr ++ body)).unpackReqHeader.1 (.new mem') =
        ⟨[a], (h.meth w a).1, (Marshall.new mem').put h.ret (h.meth w a).2⟩) ∧
    ((¬ ∃ a, body = ((Marshall.new mem'').putAll h.args a).body) →
      (h.fn w (ofBytes mem (hdr ++ body)).unpackReqHeader.1 (.new mem')).invoked = [] ∧
      (h.fn w (ofBytes mem (hdr ++ body)).unpackReqHeader.1 (.new mem')).ret =
        unmarshalArgsFailure ∧
      (h.fn w (ofBytes mem (hdr ++ body)).unpackReqHeader.1 (.new mem')).rep.body = []) := by
  have key := okdone_getAll_iff mem hhdr hbody hts hlens
  simp only [Marshall.body_putAll, ← key]
  generalize (ofBytes mem (hdr ++ body)).unpackReqHeader.1 = v at *
  cases hd : (v.getAll h.args).1.okdone with
  | false => simp [fn, hd, Marshall.body]
  | true => simp [fn, hd]

/-- A handler of one string, of which a body with a trailing byte is not
the marshalling. -/
theorem fn_accepts_length :
    let h : Handler Unit :=
      ⟨[.basic .string], .basic .int, fun _ a => (0, Int32.ofNat (List.length a.1))⟩
    (h.fn () (ofBytes (fun _ => 0) (List.replicate 24 7 ++ [0, 0, 0, 1, 97])).unpackReqHeader.1
      (.new fun _ => 0)).invoked ≠ [] ∧
    (h.fn () (ofBytes (fun _ => 0) (List.replicate 24 7 ++ [0, 0, 0, 1, 97, 0])).unpackReqHeader.1
      (.new fun _ => 0)).invoked = [] := by
  intro h
  have hbody : [0, 0, 0, 1, 97] = ((Marshall.new fun _ => 0).putAll h.args ([97], ())).body := by
    decide
  refine ⟨(fn_accepts h () (fun _ => 0) (fun _ => 0) (fun _ => 0) (by decide) (by decide)
    (by decide) (by unfold ShortLens; decide)).1.2 ⟨([97], ()), hbody⟩, ?_⟩
  refine ((fn_accepts h () (fun _ => 0) (fun _ => 0) (fun _ => 0) (by decide) (by decide)
    (by decide) (by unfold ShortLens; decide)).2.2 ?_).1
  rintro ⟨⟨a, b⟩, ha⟩
  rw [Marshall.body_putAll] at ha
  -- six bytes leave two for the string, and the length says one
  have hlen := congrArg List.length ha
  have hpre := congrArg (List.take 4) ha
  simp only [h, encAll, Ty.enc, Basic.enc, List.append_nil, List.length_append, length_be32,
    List.length_cons, List.length_nil] at hlen
  have h2 : List.length a = 2 := by omega
  simp only [h, encAll, Ty.enc, Basic.enc, h2, List.append_nil,
    List.take_left' (length_be32 _)] at hpre
  exact absurd hpre (by decide)

end Handler

end Yfs
