import Yfs.Common.Run
import Yfs.Connection.Read

/-!
# Stream framing

The peer writes PDUs whole, each starting with its own length; the
stream arrives cut anywhere. What `read_cb` makes of it is a run of a
`Socket`: the connection and the bytes sent that it has not read yet.
`framed_iff` says that the PDUs come out one by one, whole and in order,
exactly when no `read` of a length field is short: `readpdu` keeps what a
short `read` of the rest of a PDU returned, and gives up the connection
where the one of the length field returns less than four bytes.
-/

namespace Yfs

open Common

/-- A connection, and what its peer has sent and it has not read. -/
structure Socket where
  conn : Connection
  rest : List UInt8

/-- What the stream allows a `read` to return: bytes it holds, at most as
many as asked for and none only at its end, or, after the length field,
`EAGAIN`. The result is the stream after it. -/
def answer (rest : List UInt8) (r : ReadCall) : Option (List UInt8) :=
  match r.result with
  | .fail e => if e = .again ∧ r.isSz = false then some rest else none
  | .data bs =>
    if bs.length ≤ r.count ∧ bs <+: rest ∧ (bs = [] → rest = []) then some (rest.drop bs.length)
    else none

namespace Socket

/-- A call of `read_cb`, whose `read` calls return, one after the other,
what the stream allows. -/
def readCb (mem : ℕ → UInt8) (s : Socket) (io : ReadIn) : Option Socket :=
  (s.conn.readCb mem io).bind fun r =>
    (exec answer s.rest r.2).map fun rest => ⟨r.1, rest⟩

/-- The connection just made, with all of the PDUs to come. -/
def new (errno : Errno) (pdus : List (List UInt8)) : Socket := ⟨.new errno, pdus.flatten⟩

end Socket

/-- A PDU as `writepdu` sends it: its own length first. -/
structure IsPdu (p : List UInt8) : Prop where
  header : rpcHeaderSz ≤ p.length
  small : p.length ≤ maxPdu
  length : p.take 4 = be32 (UInt32.ofNat p.length)

/-- What framing promises of a state: the PDUs accepted are the first of
those sent, and the connection dies only at the end of the stream, with
all of them accepted. -/
def Intact (pdus : List (List UInt8)) (s : Socket) : Prop :=
  s.conn.accepted <+: pdus ∧ (s.conn.dead = true → s.rest = [] ∧ s.conn.accepted = pdus)

/-- A call in which neither `read` nor `got_pdu` puts the reader off. -/
def Willing (io : ReadIn) : Bool := decide (io.rest ≠ .fail .again) && io.accept

/-- What framing promises of a run: every state is intact, and once there
were as many calls that nothing put off as there are bytes and PDUs, all
PDUs have been accepted. -/
def Framed (mem : ℕ → UInt8) (pdus : List (List UInt8)) (s : Socket) (ios : List ReadIn) : Prop :=
  Along (Socket.readCb mem) (Intact pdus) s ios ∧
    ∀ t, exec (Socket.readCb mem) s ios = some t →
      pdus.flatten.length + pdus.length ≤ ios.countP Willing → t.conn.accepted = pdus

/-- A `read` of the length field, if this call makes one, is not short. -/
def FullSz (s : Socket) (io : ReadIn) : Prop :=
  s.conn.dead = false → s.conn.rpdu.sz = 0 →
    ∀ bs, io.sz = .data bs → bs.length = 4 ∨ bs.length = 0

/-! ## The states of a run -/

/-- `k` bytes of the PDU `p` have been read, and `todo` comes after it. -/
structure Partly (pdus : List (List UInt8)) (p : List UInt8) (todo : List (List UInt8)) (k : ℕ)
    (s : Socket) : Prop where
  pdus : s.conn.accepted ++ p :: todo = pdus
  alive : s.conn.dead = false
  sz : s.conn.rpdu.sz = p.length
  solong : s.conn.rpdu.solong = k
  four : 4 ≤ k
  le : k ≤ p.length
  buf : ∃ b, s.conn.rpdu.buf = some b ∧ bytesAt b 0 k = p.take k
  rest : s.rest = p.drop k ++ todo.flatten

/-- Where a run can be: between two PDUs, inside one, or at the end. -/
inductive Cut (pdus : List (List UInt8)) (s : Socket) : Prop where
  | between (todo : List (List UInt8)) (hpdus : s.conn.accepted ++ todo = pdus)
      (halive : s.conn.dead = false) (hrpdu : s.conn.rpdu = .empty) (hrest : s.rest = todo.flatten)
  | within (p : List UInt8) (todo : List (List UInt8)) (k : ℕ) (h : Partly pdus p todo k s)
  | ended (hpdus : s.conn.accepted = pdus) (hdead : s.conn.dead = true) (hrest : s.rest = [])

/-- Bytes not read and PDUs not accepted. -/
def remaining (pdus : List (List UInt8)) (s : Socket) : ℕ :=
  s.rest.length + (pdus.length - s.conn.accepted.length)

section

variable {pdus : List (List UInt8)} {s s' : Socket} {io : ReadIn}

theorem Cut.intact (h : Cut pdus s) : Intact pdus s := by
  cases h with
  | between todo hpdus halive hrpdu hrest =>
    exact ⟨⟨todo, hpdus⟩, fun hd => absurd (halive.symm.trans hd) (by decide)⟩
  | within p todo k h =>
    exact ⟨⟨p :: todo, h.pdus⟩, fun hd => absurd (h.alive.symm.trans hd) (by decide)⟩
  | ended hpdus hdead hrest => exact ⟨⟨[], by simpa using hpdus⟩, fun _ => ⟨hrest, hpdus⟩⟩

theorem Intact.accepted_of_remaining (h : Intact pdus s) (h0 : remaining pdus s = 0) :
    s.conn.accepted = pdus := by
  unfold remaining at h0
  exact h.1.eq_of_length_le (by omega)

/-- What is left of a PDU is what `readpdu` asks for. -/
theorem Partly.wanted_eq {p : List UInt8} {todo : List (List UInt8)} {k : ℕ}
    (h : Partly pdus p todo k s) (hp : p.length ≤ maxPdu) : s.conn.wanted = p.length - k := by
  have hmax : maxPdu < 2 ^ 63 := by decide
  have hle := h.le
  rw [Connection.wanted, h.sz, h.solong, Int.emod_eq_of_lt (by omega) (by omega)]
  omega

/-- The rest of a PDU, read a piece at a time. -/
theorem Partly.read {p : List UInt8} {todo : List (List UInt8)} {k : ℕ} {rest : List UInt8}
    {r : ReadResult} (h : Partly pdus p todo k s) (hp : p.length ≤ maxPdu) (hk : k < p.length)
    (ha : answer s.rest ⟨false, s.conn.wanted, r⟩ = some rest) :
    (s.conn.readRest r).2 = true ∧ ∃ k', Partly pdus p todo k' ⟨(s.conn.readRest r).1, rest⟩ ∧
      rest.length + k' = s.rest.length + k ∧ (r ≠ .fail .again → k < k') ∧ k ≤ k' := by
  cases r with
  | fail e =>
    simp only [answer, and_true, Option.ite_none_right_eq_some, Option.some.injEq] at ha
    obtain ⟨rfl, rfl⟩ := ha
    have hr : s.conn.readRest (.fail .again) = ({ s.conn with errno := .again }, true) := by
      simp [Connection.readRest, Connection.readFailed]
    rw [hr]
    exact ⟨rfl, k, ⟨h.pdus, h.alive, h.sz, h.solong, h.four, h.le, h.buf, h.rest⟩, rfl,
      fun hne => absurd rfl hne, le_rfl⟩
  | data bs =>
    simp only [answer, Option.ite_none_right_eq_some, Option.some.injEq] at ha
    obtain ⟨⟨hcount, hpre, hnil⟩, rfl⟩ := ha
    rw [h.wanted_eq hp] at hcount
    -- the stream goes on with the rest of `p`, so these bytes are the next of it
    have hbs : bs = (p.drop k).take bs.length := by
      have := List.prefix_iff_eq_take.1 hpre
      rw [h.rest, List.take_append_of_le_length (by rw [List.length_drop]; exact hcount)] at this
      exact this
    have hpos : 0 < bs.length := by
      rw [List.length_pos_iff]
      intro hb
      have hlen := congrArg List.length (h.rest.symm.trans (hnil hb))
      rw [List.length_append, List.length_drop, List.length_nil] at hlen
      omega
    have hsl : s.rest.length = p.length - k + todo.flatten.length := by
      rw [h.rest, List.length_append, List.length_drop]
    have hfour := h.four
    obtain ⟨b, hb, hbk⟩ := h.buf
    rw [Connection.readRest, if_neg (by omega)]
    refine ⟨rfl, k + bs.length, ⟨h.pdus, h.alive, h.sz, ?_, by omega, by omega,
      ⟨writeAt b k bs, ?_, ?_⟩, ?_⟩, by rw [List.length_drop]; omega, fun _ => by omega, by omega⟩
    · simp only [h.solong, Int.natCast_add]
    · simp only [hb, h.solong, Option.map_some, Int.toNat_natCast]
    · rw [bytesAt_add, bytesAt_writeAt_of_le _ _ (by omega), hbk, Nat.zero_add, bytesAt_writeAt,
        List.take_add, ← hbs]
    · simp only [h.rest]
      rw [List.drop_append_of_le_length (by rw [List.length_drop]; exact hcount), List.drop_drop]

/-- A complete PDU is accepted, or stays. -/
theorem Partly.deliver {p : List UInt8} {todo : List (List UInt8)} {k : ℕ} (accept : Bool)
    (h : Partly pdus p todo k s) :
    Cut pdus ⟨s.conn.deliver accept, s.rest⟩ ∧
      remaining pdus ⟨s.conn.deliver accept, s.rest⟩ ≤ remaining pdus s ∧
      (k = p.length → accept = true →
        remaining pdus ⟨s.conn.deliver accept, s.rest⟩ < remaining pdus s) := by
  obtain ⟨b, hb, hbk⟩ := h.buf
  have hsz := h.sz
  have hsolong := h.solong
  by_cases hfull : k = p.length ∧ accept = true
  · obtain ⟨rfl, rfl⟩ := hfull
    rw [List.take_length] at hbk
    have hd : s.conn.deliver true =
        { s.conn with rpdu := .empty, accepted := s.conn.accepted ++ [p] } := by
      simp only [Connection.deliver, hb, hsz, hsolong, and_self, if_true, Int.toNat_natCast, hbk]
    have hlen := congrArg List.length h.pdus
    rw [List.length_append, List.length_cons] at hlen
    rw [hd]
    refine ⟨.between todo ?_ h.alive rfl ?_, ?_, fun _ _ => ?_⟩
    · rw [List.append_assoc, List.singleton_append, h.pdus]
    · simp only [h.rest, List.drop_length, List.nil_append]
    · simp only [remaining, List.length_append, List.length_singleton]
      omega
    · simp only [remaining, List.length_append, List.length_singleton]
      omega
  · have hd : s.conn.deliver accept = s.conn := by
      have hne : ¬ ((p.length : ℤ) = k ∧ accept = true) := by
        rintro ⟨hk, ha⟩
        exact hfull ⟨by omega, ha⟩
      simp only [Connection.deliver, hb, hsz, hsolong, if_neg hne]
    rw [hd]
    exact ⟨.within p todo k h, le_rfl, fun hk ha => absurd ⟨hk, ha⟩ hfull⟩

/-- The length field of a PDU, as `readpdu` understands it. -/
theorem ntohl_be32 {n : ℕ} (h : n ≤ maxPdu) : ntohl (be32 (UInt32.ofNat n)) = n := by
  have hmax : maxPdu < 2 ^ 31 := by decide
  obtain ⟨b3, b2, b1, b0, he, hj⟩ := be32_eq (UInt32.ofNat n)
  rw [he, ntohl]
  simp only [List.getD_cons_zero, List.getD_cons_succ, hj]
  exact toInt_ofNat_of_lt (by omega)

/-- A whole length field starts a PDU. -/
theorem readSz_starts (mem : ℕ → UInt8) {p bs rest : List UInt8} {todo : List (List UInt8)}
    (hp : IsPdu p) (hpdus : s.conn.accepted ++ p :: todo = pdus) (halive : s.conn.dead = false)
    (hrpdu : s.conn.rpdu = .empty) (hrest : s.rest = p ++ todo.flatten) (hbs : bs.length = 4)
    (ha : answer s.rest ⟨true, 4, .data bs⟩ = some rest) :
    ∃ c, s.conn.readSz mem (.data bs) = some (c, true) ∧ Partly pdus p todo 4 ⟨c, rest⟩ ∧
      s.rest.length = rest.length + 4 := by
  have hhdr : 24 ≤ p.length := hp.header
  have hmax : maxPdu < 2 ^ 62 := by decide
  have hsmall := hp.small
  simp only [answer, Option.ite_none_right_eq_some, Option.some.injEq] at ha
  obtain ⟨⟨-, hpre, -⟩, rfl⟩ := ha
  have hbs' : bs = p.take 4 := by
    have := List.prefix_iff_eq_take.1 hpre
    rwa [hbs, hrest, List.take_append_of_le_length (by omega)] at this
  have hn : ntohl bs = p.length := by rw [hbs', hp.length, ntohl_be32 hsmall]
  have halloc : allocSize (ntohl bs) < 2 ^ 63 := by
    rw [hn, allocSize, Int.emod_eq_of_lt (by omega) (by omega)]
    omega
  refine ⟨{ s.conn with rpdu := ⟨some (writeAt mem 0 bs), allocSize (ntohl bs), ntohl bs, 4⟩ }, ?_,
    ⟨hpdus, halive, hn, rfl, le_rfl, by omega, ⟨_, rfl, ?_⟩, ?_⟩, ?_⟩
  · rw [Connection.readSz, if_neg (by omega), if_neg (by omega), if_neg (by omega), hrpdu,
      if_neg (by simp [Charbuf.empty]), if_neg (by omega)]
  · have hw := bytesAt_writeAt mem 0 bs
    rw [hbs] at hw
    rw [hw, hbs']
  · simp only [hrest, hbs]
    rw [List.drop_append_of_le_length (by omega)]
  · rw [hrest, hbs, List.length_drop, List.length_append]
    omega

/-- The second half of a call that reads inside a PDU. -/
theorem Partly.readCb {p : List UInt8} {todo : List (List UInt8)} {k : ℕ} {rest : List UInt8}
    (h : Partly pdus p todo k s) (hp : p.length ≤ maxPdu) (hk : k < p.length)
    (ha : answer s.rest ⟨false, s.conn.wanted, io.rest⟩ = some rest) :
    (s.conn.readRest io.rest).2 = true ∧
      Cut pdus ⟨(s.conn.readRest io.rest).1.deliver io.accept, rest⟩ ∧
      remaining pdus ⟨(s.conn.readRest io.rest).1.deliver io.accept, rest⟩ ≤ remaining pdus s ∧
      (Willing io = true →
        remaining pdus ⟨(s.conn.readRest io.rest).1.deliver io.accept, rest⟩ <
          remaining pdus s) := by
  obtain ⟨hsucc, k', h', hlen, hlt, hle⟩ := h.read hp hk ha
  obtain ⟨hcut, hrem, -⟩ := h'.deliver io.accept
  dsimp only at hcut hrem
  have hacc : (s.conn.readRest io.rest).1.accepted = s.conn.accepted :=
    List.append_cancel_right (h'.pdus.trans h.pdus.symm)
  have hmid : remaining pdus ⟨(s.conn.readRest io.rest).1, rest⟩ + k' = remaining pdus s + k := by
    simp only [remaining, hacc]
    omega
  refine ⟨hsucc, hcut, by omega, fun hw => ?_⟩
  have hne : io.rest ≠ .fail .again := by
    simp only [Willing, Bool.and_eq_true, decide_eq_true_eq] at hw
    exact hw.1
  have := hlt hne
  omega

/-- What a call does that finds no PDU started. -/
theorem Socket.readCb_cases {mem : ℕ → UInt8} (halive : s.conn.dead = false)
    (hrpdu : s.conn.rpdu = .empty) (hs : s.readCb mem io = some s') :
    ∃ bs rest, io.sz = .data bs ∧ answer s.rest ⟨true, 4, .data bs⟩ = some rest ∧
      ((∃ c rest', s.conn.readSz mem (.data bs) = some (c, true) ∧
          answer rest ⟨false, c.wanted, io.rest⟩ = some rest' ∧
          s' = ⟨(if (c.readRest io.rest).2 then (c.readRest io.rest).1
            else (c.readRest io.rest).1.kill).deliver io.accept, rest'⟩) ∨
        ∃ c, s.conn.readSz mem (.data bs) = some (c, false) ∧
          s' = ⟨c.kill.deliver io.accept, rest⟩) := by
  obtain ⟨⟨c, calls⟩, hc, hs⟩ := Option.bind_eq_some_iff.1 hs
  obtain ⟨rest, ha, rfl⟩ := Option.map_eq_some_iff.1 hs
  rw [Connection.readCb, halive, if_neg (by decide), if_pos (.inl (by rw [hrpdu]; rfl)),
    Connection.readpdu, if_pos (by rw [hrpdu]; rfl)] at hc
  simp only [Option.map_map, Option.map_eq_some_iff, Function.comp_apply] at hc
  obtain ⟨⟨c', succ⟩, hsz, hc⟩ := hc
  cases hio : io.sz with
  | fail e =>
    -- the stream answers a `read` of the length field with bytes only
    rw [hio, Connection.readSz] at hsz
    split at hsz
    · cases hsz
    · cases hsz
      cases hc
      obtain ⟨_, ha, -⟩ := exec_cons_eq_some.1 ha
      simp [answer, hio] at ha
  | data bs =>
    rw [hio] at hsz hc
    cases succ with
    | false =>
      cases hc
      obtain ⟨rest', ha, hnil⟩ := exec_cons_eq_some.1 ha
      cases hnil
      exact ⟨bs, rest, rfl, ha, .inr ⟨c', hsz, rfl⟩⟩
    | true =>
      cases hc
      obtain ⟨rest', ha, ha'⟩ := exec_cons_eq_some.1 ha
      obtain ⟨rest'', ha', hnil⟩ := exec_cons_eq_some.1 ha'
      cases hnil
      exact ⟨bs, rest', rfl, ha, .inl ⟨c', rest, hsz, ha', rfl⟩⟩

/-- Nothing is left of the stream only when no PDU is. -/
theorem eq_nil_of_flatten {todo : List (List UInt8)} (hp : ∀ p ∈ todo, IsPdu p)
    (h : todo.flatten = []) : todo = [] := by
  cases todo with
  | nil => rfl
  | cons p todo =>
    have hhdr : 24 ≤ p.length := (hp p List.mem_cons_self).header
    have hlen := congrArg List.length h
    rw [List.flatten_cons, List.length_append, List.length_nil] at hlen
    omega

/-- **One call of `read_cb`**, where it meets no short length field: the
run goes on as it should, and unless it is put off it gets further. -/
theorem Cut.step {mem : ℕ → UInt8} (hp : ∀ p ∈ pdus, IsPdu p) (h : Cut pdus s)
    (hfull : FullSz s io) (hs : s.readCb mem io = some s') :
    Cut pdus s' ∧ remaining pdus s' ≤ remaining pdus s ∧
      (Willing io = true → remaining pdus s' < remaining pdus s ∨ remaining pdus s' = 0) := by
  cases h with
  | ended hpdus hdead hrest =>
    have hsame : s' = s := by
      rw [Socket.readCb, Connection.readCb, if_pos hdead] at hs
      exact (Option.some.inj hs).symm
    rw [hsame]
    refine ⟨.ended hpdus hdead hrest, le_rfl, fun _ => .inr ?_⟩
    simp only [remaining, hpdus, hrest, List.length_nil, Nat.sub_self]
  | within p todo k h =>
    have hpp := hp p (h.pdus ▸ by simp)
    obtain ⟨b, hb, -⟩ := h.buf
    have hle := h.le
    have hfour := h.four
    obtain ⟨⟨c, calls⟩, hc, hs⟩ := Option.bind_eq_some_iff.1 hs
    obtain ⟨rest, ha, rfl⟩ := Option.map_eq_some_iff.1 hs
    by_cases hk : k < p.length
    · rw [Connection.readCb, h.alive, if_neg (by decide),
        if_pos (.inr (by rw [h.sz, h.solong]; omega)), Connection.readpdu,
        if_neg (by rw [h.sz]; omega)] at hc
      cases hc
      obtain ⟨_, ha, hnil⟩ := exec_cons_eq_some.1 ha
      cases hnil
      obtain ⟨hsucc, hcut, hrem, hlt⟩ := h.readCb hpp.small hk ha
      simp only [hsucc, if_true]
      exact ⟨hcut, hrem, fun hw => .inl (hlt hw)⟩
    · -- a PDU refused before is offered again, and nothing is read
      rw [Connection.readCb, h.alive, if_neg (by decide),
        if_neg (by rw [hb, h.sz, h.solong]; simp; omega)] at hc
      cases hc
      cases ha
      obtain ⟨hcut, hrem, hlt⟩ := h.deliver io.accept
      refine ⟨hcut, hrem, fun hw => .inl (hlt (by omega) ?_)⟩
      simp only [Willing, Bool.and_eq_true] at hw
      exact hw.2
  | between todo hpdus halive hrpdu hrest =>
    obtain ⟨bs, rest, hio, ha, hcase⟩ := Socket.readCb_cases halive hrpdu hs
    rcases hfull halive (by rw [hrpdu]; rfl) bs hio with hbs | hbs
    · cases todo with
      | nil =>
        -- a stream at its end has no four bytes to give
        simp only [answer, hrest, Option.ite_none_right_eq_some, List.flatten_nil,
          List.prefix_nil] at ha
        simp [ha.1.2.1] at hbs
      | cons p todo =>
        have hpp := hp p (hpdus ▸ by simp)
        have hhdr : 24 ≤ p.length := hpp.header
        obtain ⟨c, hc, hpart, hlen⟩ := readSz_starts mem hpp hpdus halive hrpdu hrest hbs ha
        rcases hcase with ⟨c', rest', hc', ha', rfl⟩ | ⟨c', hc', -⟩
        · cases hc.symm.trans hc'
          obtain ⟨hsucc, hcut, hrem, -⟩ := hpart.readCb hpp.small (by omega) ha'
          dsimp only at hsucc hcut hrem
          have hmid : remaining pdus ⟨c, rest⟩ < remaining pdus s := by
            have hacc : c.accepted = s.conn.accepted :=
              List.append_cancel_right (hpart.pdus.trans hpdus.symm)
            simp only [remaining, hacc]
            omega
          simp only [hsucc, if_true]
          exact ⟨hcut, by omega, fun _ => .inl (by omega)⟩
        · cases hc.symm.trans hc'
    · have hend : s.rest = [] := by
        simp only [answer, Option.ite_none_right_eq_some] at ha
        exact ha.1.2.2 (List.length_eq_zero_iff.1 hbs)
      have htodo : todo = [] :=
        eq_nil_of_flatten (fun p hp' => hp p (hpdus ▸ by simp [hp'])) (hrest.symm.trans hend)
      subst htodo
      rw [List.append_nil] at hpdus
      have hsz : s.conn.readSz mem (.data bs) = some (s.conn, false) := by
        rw [Connection.readSz, if_pos hbs]
      rcases hcase with ⟨c, rest', hc, -⟩ | ⟨c, hc, rfl⟩
      · cases hsz.symm.trans hc
      · cases hsz.symm.trans hc
        have hrest' : rest = [] := by
          simp only [answer, hend, List.drop_nil, Option.ite_none_right_eq_some,
            Option.some.injEq] at ha
          exact ha.2.symm
        have hdel : s.conn.kill.deliver io.accept = s.conn.kill := by
          simp only [Connection.deliver, Connection.kill, hrpdu, Charbuf.empty]
        rw [hdel]
        refine ⟨.ended hpdus rfl hrest', ?_, fun _ => .inr ?_⟩
        · simp only [remaining, hrest', hpdus, Connection.kill, hend, le_refl]
        · simp only [remaining, hrest', hpdus, Connection.kill, List.length_nil, Nat.sub_self]

/-! ## Runs -/

/-- A run without short length fields stays on course, and each of its
calls that nothing puts off takes a byte or a PDU off what remains. -/
theorem Cut.run {mem : ℕ → UInt8} {ios : List ReadIn} {t : Socket} (hp : ∀ p ∈ pdus, IsPdu p)
    (h : Cut pdus s) (hfull : Steps (Socket.readCb mem) FullSz s ios)
    (ht : exec (Socket.readCb mem) s ios = some t) :
    Cut pdus t ∧ remaining pdus t ≤ remaining pdus s ∧
      (remaining pdus t = 0 ∨ remaining pdus t + ios.countP Willing ≤ remaining pdus s) := by
  induction ios generalizing s with
  | nil =>
    cases ht
    exact ⟨h, le_rfl, .inr le_rfl⟩
  | cons io ios ih =>
    obtain ⟨s', hs, ht⟩ := exec_cons_eq_some.1 ht
    obtain ⟨h', hle, hlt⟩ := h.step hp hfull.1 hs
    obtain ⟨hc, hle', hcount⟩ := ih h' (hfull.2 s' hs) ht
    refine ⟨hc, by omega, ?_⟩
    by_cases hw : Willing io = true
    · rw [List.countP_cons_of_pos hw]
      have := hlt hw
      omega
    · rw [List.countP_cons_of_neg hw]
      omega

/-- A short length field kills the connection, bytes of the stream still
to come. -/
theorem Cut.not_intact_of_short {mem : ℕ → UInt8} (h : Cut pdus s) (hshort : ¬ FullSz s io)
    (hs : s.readCb mem io = some s') : ¬ Intact pdus s' := by
  simp only [FullSz, not_forall, not_or] at hshort
  obtain ⟨halive, hsz, bs, hio, h4, h0⟩ := hshort
  cases h with
  | ended hpdus hdead hrest => cases halive.symm.trans hdead
  | within p todo k h =>
    have hle := h.le
    have hfour := h.four
    rw [h.sz] at hsz
    omega
  | between todo hpdus halive hrpdu hrest =>
    obtain ⟨bs', rest, hio', ha, hcase⟩ := Socket.readCb_cases halive hrpdu hs
    cases hio.symm.trans hio'
    have hfail : s.conn.readSz mem (.data bs) = some (s.conn, false) := by
      rw [Connection.readSz, if_neg h0, if_pos h4]
    rcases hcase with ⟨c, rest', hc, -⟩ | ⟨c, hc, rfl⟩
    · cases hfail.symm.trans hc
    · cases hfail.symm.trans hc
      have hdel : s.conn.kill.deliver io.accept = s.conn.kill := by
        simp only [Connection.deliver, Connection.kill, hrpdu, Charbuf.empty]
      rw [hdel]
      rintro ⟨-, hdead⟩
      obtain ⟨-, hacc⟩ := hdead rfl
      -- all PDUs accepted leaves nothing to read, not even these bytes
      have htodo : todo = [] := by
        have hacc' : s.conn.accepted = pdus := hacc
        rw [← hacc'] at hpdus
        exact List.append_right_eq_self.1 hpdus
      rw [htodo, List.flatten_nil] at hrest
      simp only [answer, hrest, Option.ite_none_right_eq_some, List.prefix_nil] at ha
      exact h0 (by rw [ha.1.2.1, List.length_nil])

/-- **Framing holds exactly without short length fields.** For every
sequence of PDUs and every way the stream is cut, `got_pdu` accepts the
PDUs one after the other and the connection stays alive to the end of the
stream if and only if every `read` of a length field returns all of it. -/
theorem framed_iff {mem : ℕ → UInt8} {e : Errno} {ios : List ReadIn} (hp : ∀ p ∈ pdus, IsPdu p)
    (hrun : (exec (Socket.readCb mem) (.new e pdus) ios).isSome) :
    Framed mem pdus (.new e pdus) ios ↔ Steps (Socket.readCb mem) FullSz (.new e pdus) ios := by
  have hnew : Cut pdus (.new e pdus) := .between pdus rfl rfl rfl rfl
  obtain ⟨t, ht⟩ := Option.isSome_iff_exists.1 hrun
  constructor
  · rintro ⟨hint, -⟩
    generalize Socket.new e pdus = s at hnew ht hint
    clear hrun
    induction ios generalizing s with
    | nil => trivial
    | cons io ios ih =>
      obtain ⟨s', hs, ht⟩ := exec_cons_eq_some.1 ht
      have hint' := hint.2 s' hs
      have hfull : FullSz s io := by
        by_contra hshort
        exact hnew.not_intact_of_short hshort hs hint'.head
      refine ⟨hfull, fun s'' hs'' => ?_⟩
      cases hs.symm.trans hs''
      exact ih s' (hnew.step hp hfull hs).1 ht hint'
  · intro hfull
    refine ⟨along_of_steps (fun s io s' hc hf hs => (hc.step hp hf hs).1) (fun s => Cut.intact)
      hnew hfull, fun t' ht' hcount => ?_⟩
    obtain ⟨hc, -, hrem⟩ := hnew.run hp hfull ht'
    refine hc.intact.accepted_of_remaining ?_
    have h0 : remaining pdus (.new e pdus) = pdus.flatten.length + pdus.length := by
      simp only [remaining, Socket.new, Connection.new, List.length_nil, Nat.sub_zero]
    omega

end

/-! ## Two streams of one PDU -/

/-- A PDU that is a header and nothing more. -/
def headerPdu : List UInt8 := be32 24 ++ List.replicate 20 7

/-- Read in four calls: the length field with `EAGAIN` after it, part of
the rest, the other part with `got_pdu` refusing, and the PDU offered
again. -/
theorem framed_headerPdu :
    Framed (fun _ => 0) [headerPdu] (.new .other [headerPdu])
      [⟨.data (be32 24), .fail .again, true⟩, ⟨.data [], .data (List.replicate 13 7), true⟩,
        ⟨.data [], .data (List.replicate 7 7), false⟩, ⟨.data [], .data [], true⟩] := by
  refine (framed_iff (fun p hp => List.mem_singleton.1 hp ▸ ⟨by decide, by decide, by decide⟩)
    (by decide)).2 (steps_of_forall fun io hio s _ _ bs hbs => ?_)
  simp only [List.mem_cons, List.not_mem_nil, or_false] at hio
  rcases hio with rfl | rfl | rfl | rfl <;> cases hbs <;> decide

/-- Half of the length field comes first. -/
theorem not_framed_headerPdu :
    IsPdu headerPdu ∧
    (exec (Socket.readCb fun _ => 0) (.new .other [headerPdu])
      [⟨.data [0, 0], .data [], true⟩]).isSome ∧
    ¬ Framed (fun _ => 0) [headerPdu] (.new .other [headerPdu])
      [⟨.data [0, 0], .data [], true⟩] := by
  refine ⟨⟨by decide, by decide, by decide⟩, by decide, fun h => ?_⟩
  obtain ⟨hrest, -⟩ := (h.1.2 _ rfl).2 rfl
  cases hrest

end Yfs
