import Yfs.Connection.Framing
import Yfs.Connection.Sending

/-!
# From `send` to `got_pdu`

The two ends of a connection together: any number of threads that send at
one end, the bytes on their way, and the callback that reads at the other.
The sockets do what they like: a `write` or a `read` may be short, fail, or
find that it has to wait, the peer may be gone at any time, and what is on
its way then is lost. `pipe_faithful` says that `got_pdu` accepts at one
end the PDUs that were sent at the other, each as it was, in the order in
which the calls of `send` obtained `wpdu_`, none of them twice and none of
them left out; where the connection dies, those after some point are
missing.
-/

namespace Yfs

open Common

/-- A connection from one process to another. -/
structure Pipe where
  /-- The end at which is sent. -/
  sender : Outgoing
  /-- What was written there and not read yet. -/
  wire : List UInt8
  /-- The end at which is read. -/
  reader : Connection

/-- What a `read` can return of the bytes on the wire. It fails, or finds
the end of the stream, at any time. The result is the wire after it. -/
def supply (wire : List UInt8) (r : ReadCall) : Option (List UInt8) :=
  match r.result with
  | .fail _ => some wire
  | .data bs =>
    if bs.length ≤ r.count ∧ bs <+: wire then some (wire.drop bs.length) else none

namespace Pipe

/-- A connection just made. -/
def new (errno errno' : Errno) : Pipe := ⟨.new errno, [], .new errno'⟩

/-- What can happen. -/
inductive Act where
  /-- Anything at the sending end. -/
  | send (a : Outgoing.Act)
  /-- `read_cb` at the reading end. -/
  | read (mem : ℕ → UInt8) (io : ReadIn)
  /-- `closeconn` at the reading end, or a `send` there that fails. -/
  | die

/-- One step. -/
def step (s : Pipe) : Act → Option Pipe
  | .send a =>
    (s.sender.step a).map fun t =>
      { s with sender := t, wire := s.wire ++ t.out.drop s.sender.out.length }
  | .read mem io =>
    (s.reader.readCb mem io).bind fun r =>
      (exec supply s.wire r.2).map fun wire => { s with wire := wire, reader := r.1 }
  | .die => some { s with reader := { s.reader with dead := true } }

/-- The PDUs sent, oldest first. -/
def pdus (s : Pipe) : List (List UInt8) := s.sender.obtained.map Pdu.bytes

end Pipe

/-- All of the PDU has been read. -/
structure Charbuf.Full (b : Charbuf) (p : List UInt8) : Prop where
  sz : b.sz = p.length
  solong : b.solong = p.length
  buf : ∃ f, b.buf = some f ∧ bytesAt f 0 p.length = p

/-- What a connection promises. -/
structure Faithful (s : Pipe) : Prop where
  /-- The PDUs accepted are the first of those sent. -/
  inOrder : s.reader.accepted <+: s.pdus
  /-- With both ends alive, nothing to write and nothing on the wire, all
  of them are accepted, but perhaps one that is in the buffer of the reader
  and `got_pdu` refused so far. -/
  all : s.reader.dead = false → s.sender.conn.dead = false → s.sender.wpdu.buf = none →
    s.wire = [] → s.reader.accepted = s.pdus ∨
      ∃ p, s.reader.accepted ++ [p] = s.pdus ∧ s.reader.rpdu.Full p

/-! ## The sending end -/

section

variable {s s' : Outgoing} {r : WriteResult}

/-- What was written and what was sent stays. -/
structure Outgoing.Onward (s s' : Outgoing) : Prop where
  out : s.out <+: s'.out
  obtained : s.obtained <+: s'.obtained

theorem Outgoing.Onward.trans {s'' : Outgoing} (h : s.Onward s') (h' : s'.Onward s'') :
    s.Onward s'' :=
  ⟨h.out.trans h'.out, h.obtained.trans h'.obtained⟩

theorem onward_of_eq (hout : s'.out = s.out) (hobt : s'.obtained = s.obtained) : s.Onward s' :=
  ⟨hout ▸ List.prefix_rfl, hobt ▸ List.prefix_rfl⟩

theorem onward_writepdu {w : Outgoing × Bool} (h : s.writepdu r = some w) : s.Onward w.1 := by
  unfold Outgoing.writepdu at h
  rw [Option.ite_none_left_eq_some] at h
  obtain ⟨-, h⟩ := h
  split at h
  · obtain rfl := Option.some.inj h
    exact onward_of_eq rfl rfl
  obtain ⟨b, -, h⟩ := Option.bind_eq_some_iff.1 h
  dsimp only at h
  split at h
  · obtain rfl := Option.some.inj h
    exact onward_of_eq rfl rfl
  · obtain rfl := Option.some.inj h
    exact onward_of_eq rfl rfl
  · rw [Option.ite_none_right_eq_some] at h
    obtain rfl := Option.some.inj h.2
    exact ⟨List.prefix_append _ _, List.prefix_rfl⟩

theorem onward_trySend {pdu : Pdu} {rest : List Sender} (h : s.trySend pdu rest r = some s') :
    s.Onward s' := by
  unfold Outgoing.trySend at h
  split at h
  · obtain rfl := Option.some.inj h
    exact onward_of_eq rfl rfl
  dsimp only at h
  split at h
  · obtain rfl := Option.some.inj h
    exact onward_of_eq rfl rfl
  obtain ⟨w, hw, rfl⟩ := Option.map_eq_some_iff.1 h
  have hwrote := onward_writepdu hw
  have hobtain : s.Onward w.1 :=
    ⟨hwrote.out, (List.prefix_append s.obtained [pdu]).trans hwrote.obtained⟩
  split
  · exact hobtain.trans (onward_of_eq rfl rfl)
  split
  · exact hobtain.trans (onward_of_eq rfl rfl)
  · exact hobtain

theorem onward_runSender {t : Sender} {rest : List Sender}
    (h : s.runSender t rest r = some s') : s.Onward s' := by
  unfold Outgoing.runSender at h
  split at h
  · have hstart := onward_trySend h
    exact ⟨hstart.out, hstart.obtained⟩
  · exact onward_trySend h
  · split at h
    · obtain rfl := Option.some.inj h
      exact onward_of_eq rfl rfl
    · obtain rfl := Option.some.inj h
      exact onward_of_eq rfl rfl
  · obtain rfl := Option.some.inj h
    exact onward_of_eq rfl rfl

theorem onward_writeCb (h : s.writeCb r = some s') : s.Onward s' := by
  unfold Outgoing.writeCb at h
  rw [Option.ite_none_left_eq_some] at h
  obtain ⟨-, h⟩ := h
  split at h
  · obtain rfl := Option.some.inj h
    exact onward_of_eq rfl rfl
  obtain ⟨w, hw, h⟩ := Option.bind_eq_some_iff.1 h
  have hwrote := onward_writepdu hw
  dsimp only at h
  split at h
  · obtain rfl := Option.some.inj h
    exact hwrote.trans (onward_of_eq rfl rfl)
  rw [Option.ite_none_left_eq_some] at h
  obtain ⟨-, h⟩ := h
  split at h
  · obtain rfl := Option.some.inj h
    exact hwrote
  · obtain rfl := Option.some.inj h
    exact hwrote.trans (onward_of_eq rfl rfl)

/-- **A step of the sending end** takes nothing back. -/
theorem onward_step {a : Outgoing.Act} (h : s.step a = some s') : s.Onward s' := by
  cases a with
  | send pdu =>
    obtain rfl := Option.some.inj h
    exact onward_of_eq rfl rfl
  | run k r =>
    obtain ⟨t, -, h⟩ := Option.bind_eq_some_iff.1 h
    exact onward_runSender h
  | writeCb r => exact onward_writeCb h
  | readCb mem io =>
    obtain ⟨c, -, rfl⟩ := Option.map_eq_some_iff.1 h
    exact onward_of_eq rfl rfl
  | closeconn =>
    obtain rfl := Option.some.inj h
    unfold Outgoing.closeconn
    split
    · exact onward_of_eq rfl rfl
    · exact onward_of_eq rfl rfl

end

/-! ## The reading end -/

/-- Where a live reading end is: between two PDUs or inside one, with the
bytes on the wire the next ones of what was sent. -/
structure Reading (s : Pipe) (rest : List UInt8) : Prop where
  cut : Cut s.pdus ⟨s.reader, rest⟩
  alive : s.reader.dead = false
  small : s.reader.rpdu.sz ≤ maxPdu
  /-- What was read, and what is to come. -/
  taken : ∃ taken, s.sender.out = taken ++ s.wire ∧ s.pdus.flatten = taken ++ rest

/-- The invariant. -/
structure Joined (s : Pipe) : Prop where
  sound : Sound s.sender
  inOrder : s.reader.accepted <+: s.pdus
  reading : s.reader.dead = false → ∃ rest, Reading s rest

section

variable {s s' : Pipe} {rest : List UInt8} {mem : ℕ → UInt8} {io : ReadIn}

theorem joined_new (errno errno' : Errno) : Joined (.new errno errno') where
  sound := sound_new errno
  inOrder := List.nil_prefix
  reading _ := ⟨[], .between [] rfl rfl rfl rfl, rfl, Int.natCast_nonneg maxPdu, [], rfl, rfl⟩

/-- More PDUs to come change nothing for those before. -/
theorem Cut.append {pdus : List (List UInt8)} {c : Connection} (h : Cut pdus ⟨c, rest⟩)
    (halive : c.dead = false) (more : List (List UInt8)) :
    Cut (pdus ++ more) ⟨c, rest ++ more.flatten⟩ := by
  cases h with
  | between todo hpdus hlive hrpdu hrest =>
    refine .between (todo ++ more) ?_ hlive hrpdu ?_
    · rw [← List.append_assoc, hpdus]
    · rw [List.flatten_append, ← hrest]
  | within p todo k h =>
    refine .within p (todo ++ more) k
      ⟨?_, h.alive, h.sz, h.solong, h.four, h.le, h.buf, ?_⟩
    · rw [← h.pdus]
      simp
    · have hrest : rest = p.drop k ++ todo.flatten := h.rest
      rw [hrest, List.flatten_append, List.append_assoc]
  | ended _ hdead _ => exact absurd (halive.symm.trans hdead) (by decide)

/-- The bytes on the wire are the next ones. -/
theorem Reading.wire_prefix (h : Reading s rest) (hsound : Sound s.sender) : s.wire <+: rest := by
  obtain ⟨taken, hout, hflat⟩ := h.taken
  have hordered := hsound.ordered
  rw [List.flatMap_def, hout] at hordered
  exact (List.prefix_append_right_inj taken).1 (hflat ▸ hordered)

/-- **A step of the sending end.** -/
theorem Joined.send {a : Outgoing.Act} {t : Outgoing} (h : Joined s)
    (hs : s.sender.step a = some t) :
    Joined { s with sender := t, wire := s.wire ++ t.out.drop s.sender.out.length } := by
  obtain ⟨⟨new, hnew⟩, ⟨more, hmore⟩⟩ := onward_step hs
  have hpdus : t.obtained.map Pdu.bytes = s.pdus ++ more.map Pdu.bytes := by
    rw [← hmore, List.map_append]
    rfl
  refine ⟨h.sound.step hs, h.inOrder.trans ⟨_, hpdus.symm⟩, fun hlive => ?_⟩
  obtain ⟨rest, hcut, halive, hsmall, taken, hout, hflat⟩ := h.reading hlive
  refine ⟨rest ++ (more.map Pdu.bytes).flatten, ?_, hlive, hsmall, taken, ?_, ?_⟩
  · show Cut (t.obtained.map Pdu.bytes) _
    rw [hpdus]
    exact hcut.append halive _
  · rw [← hnew, List.drop_left, hout, List.append_assoc]
  · show (t.obtained.map Pdu.bytes).flatten = _
    rw [hpdus, List.flatten_append, hflat, List.append_assoc]

/-- What a reading end leaves that has died. -/
theorem Joined.died (h : Joined s) {c : Connection} {wire : List UInt8} (hdead : c.dead = true)
    (hacc : c.accepted = s.reader.accepted) : Joined { s with wire := wire, reader := c } where
  sound := h.sound
  inOrder := by
    show c.accepted <+: s.pdus
    rw [hacc]
    exact h.inOrder
  reading hlive := absurd (hdead.symm.trans hlive) (by decide)

/-- What it leaves that has read some bytes. -/
theorem Joined.read (h : Joined s) (hreading : Reading s rest) {c : Connection}
    {wire rest' : List UInt8} (bs : List UInt8) (hwire : s.wire = bs ++ wire)
    (hrest : rest = bs ++ rest') (hcut : Cut s.pdus ⟨c, rest'⟩) (hlive : c.dead = false)
    (hsmall : c.rpdu.sz ≤ maxPdu) :
    Joined { s with wire := wire, reader := c } where
  sound := h.sound
  inOrder := hcut.intact.1
  reading _ := by
    obtain ⟨taken, hout, hflat⟩ := hreading.taken
    refine ⟨rest', hcut, hlive, hsmall, taken ++ bs, ?_, ?_⟩
    · rw [List.append_assoc, ← hwire, hout]
    · rw [List.append_assoc, ← hrest]
      exact hflat

/-- A `read` that returned some bytes, seen from what is to come. -/
theorem supply_data {wire wire' bs : List UInt8} {isSz : Bool} {count : ℕ}
    (h : supply wire ⟨isSz, count, .data bs⟩ = some wire') (hpre : wire <+: rest) (hbs : bs ≠ []) :
    wire = bs ++ wire' ∧ rest = bs ++ rest.drop bs.length ∧
      answer rest ⟨isSz, count, .data bs⟩ = some (rest.drop bs.length) := by
  unfold supply at h
  dsimp only at h
  rw [Option.ite_none_right_eq_some] at h
  obtain ⟨⟨hcount, more, rfl⟩, h⟩ := h
  rw [List.drop_left, Option.some.injEq] at h
  obtain ⟨after, rfl⟩ := hpre
  refine ⟨by rw [h], ?_, ?_⟩
  · rw [List.append_assoc, List.drop_left]
  · have hnext : bs <+: bs ++ more ++ after := by
      rw [List.append_assoc]
      exact List.prefix_append _ _
    unfold answer
    dsimp only
    rw [if_pos ⟨hcount, hnext, fun hnil => absurd hnil hbs⟩]

/-- **A `read` inside a PDU**: some more of it is read, nothing is, or the
connection is given up. -/
theorem Partly.supply {c : Connection} {p wire wire' : List UInt8} {todo : List (List UInt8)}
    {k : ℕ} {r : ReadResult} (h : Partly s.pdus p todo k ⟨c, rest⟩) (hp : p.length ≤ maxPdu)
    (hk : k < p.length) (hpre : wire <+: rest)
    (hs : Yfs.supply wire ⟨false, c.wanted, r⟩ = some wire') :
    ((c.readRest r).2 = true ∧ ∃ bs k', wire = bs ++ wire' ∧ rest = bs ++ rest.drop bs.length ∧
        Partly s.pdus p todo k' ⟨(c.readRest r).1, rest.drop bs.length⟩) ∨
      ((c.readRest r).2 = false ∧ (c.readRest r).1.rpdu = .empty ∧
        (c.readRest r).1.accepted = c.accepted) := by
  have hfailed : ∀ d : Connection, d.accepted = c.accepted → Partly s.pdus p todo k ⟨d, rest⟩ →
      (d.readFailed.2 = true ∧ Partly s.pdus p todo k ⟨d.readFailed.1, rest⟩) ∨
        (d.readFailed.2 = false ∧ d.readFailed.1.rpdu = .empty ∧
          d.readFailed.1.accepted = c.accepted) := by
    intro d hacc hpart
    unfold Connection.readFailed
    split
    · exact .inl ⟨rfl, hpart⟩
    · exact .inr ⟨rfl, rfl, hacc⟩
  cases r with
  | fail e =>
    obtain rfl := Option.some.inj hs
    rcases hfailed { c with errno := e } rfl
      ⟨h.pdus, h.alive, h.sz, h.solong, h.four, h.le, h.buf, h.rest⟩ with ⟨hok, hpart⟩ | hno
    · exact .inl ⟨hok, [], k, rfl, rfl, hpart⟩
    · exact .inr hno
  | data bs =>
    by_cases hbs : bs = []
    · subst hbs
      have hwire : wire = wire' := by
        unfold Yfs.supply at hs
        dsimp only at hs
        rw [if_pos ⟨Nat.zero_le _, List.nil_prefix⟩] at hs
        exact Option.some.inj hs
      rcases hfailed c rfl h with ⟨hok, hpart⟩ | hno
      · exact .inl ⟨hok, [], k, hwire, rfl, hpart⟩
      · exact .inr hno
    · obtain ⟨hwire, hrest, hans⟩ := supply_data hs hpre hbs
      obtain ⟨hok, k', hpart, -⟩ := h.read hp hk hans
      exact .inl ⟨hok, bs, k', hwire, hrest, hpart⟩

theorem deliver_small {c : Connection} (h : c.rpdu.sz ≤ maxPdu) (accept : Bool) :
    (c.deliver accept).rpdu.sz ≤ maxPdu := by
  unfold Connection.deliver
  split
  · exact h
  · split
    · exact Int.natCast_nonneg maxPdu
    · exact h

/-- What follows a `read` inside a PDU. -/
theorem Joined.partly (h : Joined s) (hreading : Reading s rest) {c : Connection}
    {p wire wire' rest' : List UInt8} {todo : List (List UInt8)} {k : ℕ} (bs : List UInt8)
    (hwire : s.wire = bs ++ wire) (hrest : rest = bs ++ rest')
    (hpart : Partly s.pdus p todo k ⟨c, rest'⟩) (hp : p.length ≤ maxPdu) (hk : k < p.length)
    (hpre : wire <+: rest') (hacc : c.accepted = s.reader.accepted)
    (hs : Yfs.supply wire ⟨false, c.wanted, io.rest⟩ = some wire') :
    Joined { s with
      wire := wire'
      reader := (if (c.readRest io.rest).2 then (c.readRest io.rest).1
        else (c.readRest io.rest).1.kill).deliver io.accept } := by
  rcases hpart.supply hp hk hpre hs with ⟨hok, bs', k', hwire', hrest', hpart'⟩ | ⟨hno, hr, ha⟩
  · obtain ⟨hcut, -⟩ := hpart'.deliver io.accept
    rw [if_pos hok]
    refine h.read hreading (bs ++ bs') ?_ ?_ hcut ?_ (deliver_small ?_ _)
    · rw [hwire, hwire', List.append_assoc]
    · rw [List.append_assoc, ← hrest', hrest]
    · exact (Connection.sameSignals_deliver _ _).dead.trans hpart'.alive
    · have hsz : (c.readRest io.rest).1.rpdu.sz = p.length := hpart'.sz
      omega
  · have hdel : (c.readRest io.rest).1.kill.deliver io.accept = (c.readRest io.rest).1.kill := by
      unfold Connection.deliver Connection.kill
      rw [hr]
      rfl
    rw [if_neg (by rw [hno]; decide), hdel]
    exact h.died rfl (ha.trans hacc)

/-- A reading end that gives up before a PDU is started. -/
theorem Joined.giveUp (h : Joined s) {c : Connection} {wire : List UInt8} (accept : Bool)
    (hrpdu : c.rpdu = .empty) (hacc : c.accepted = s.reader.accepted) :
    Joined { s with wire := wire, reader := c.kill.deliver accept } := by
  have hdel : c.kill.deliver accept = c.kill := by
    unfold Connection.deliver Connection.kill
    rw [hrpdu]
    rfl
  rw [hdel]
  exact h.died rfl hacc

/-- The length field of any PDU. -/
theorem ntohl_sz (p : Pdu) : ntohl (be32 (UInt32.ofNat p.sz)) = p.sz := by
  obtain ⟨b3, b2, b1, b0, he, hj⟩ := be32_eq (UInt32.ofNat p.sz)
  rw [he, ntohl]
  simp only [List.getD_cons_zero, List.getD_cons_succ, hj]
  exact toInt_ofNat_of_lt p.int

theorem Pdu.length_bytes (p : Pdu) : p.bytes.length = p.sz := by
  rw [p.bytes_eq, length_bytesAt]

/-- A PDU sent is one for the reader, where it is not too long. -/
theorem Pdu.isPdu (p : Pdu) (hsmall : p.sz ≤ maxPdu) : IsPdu p.bytes where
  header := by
    rw [p.length_bytes]
    exact p.header
  small := by rwa [p.length_bytes]
  length := p.take_bytes

/-- Four bytes that are read between two PDUs are the length of the next. -/
theorem exists_nextPdu {todo : List (List UInt8)} {bs rest' : List UInt8}
    (hpdus : s.reader.accepted ++ todo = s.pdus) (hrest : rest = todo.flatten)
    (hread : rest = bs ++ rest') (h4 : bs.length = 4) :
    ∃ q todo', todo = Pdu.bytes q :: todo' ∧ bs = be32 (UInt32.ofNat q.sz) := by
  cases todo with
  | nil =>
    rw [hrest, List.flatten_nil] at hread
    rw [(List.append_eq_nil_iff.1 hread.symm).1] at h4
    cases h4
  | cons p todo' =>
    obtain ⟨q, -, rfl⟩ : ∃ q ∈ s.sender.obtained, q.bytes = p := by
      refine List.mem_map.1 (show p ∈ s.pdus from ?_)
      rw [← hpdus]
      exact List.mem_append_right _ List.mem_cons_self
    refine ⟨q, todo', rfl, ?_⟩
    have hheader : 24 ≤ q.bytes.length := q.length_bytes ▸ q.header
    have hnext : bs <+: q.bytes ++ todo'.flatten :=
      ⟨rest', by rw [← hread, hrest, List.flatten_cons]⟩
    rw [List.prefix_iff_eq_take, h4, List.take_append_of_le_length (by omega), q.take_bytes,
      q.length_bytes] at hnext
    exact hnext

/-- **`read_cb` between two PDUs**: it reads the length field of the next
one and goes on with that, or gives up. -/
theorem Joined.between {todo : List (List UInt8)} {r : Connection × List ReadCall}
    {wire : List UInt8} (h : Joined s) (hreading : Reading s rest)
    (hpdus : s.reader.accepted ++ todo = s.pdus) (hrpdu : s.reader.rpdu = .empty)
    (hrest : rest = todo.flatten) (hr : s.reader.readCb mem io = some r)
    (hw : exec supply s.wire r.2 = some wire) :
    Joined { s with wire := wire, reader := r.1 } := by
  have hpre := hreading.wire_prefix h.sound
  have halive := hreading.alive
  rw [Connection.readCb, halive, if_neg (by decide), if_pos (.inl (by rw [hrpdu]; rfl)),
    Connection.readpdu, if_pos (by rw [hrpdu]; rfl), Option.map_map] at hr
  obtain ⟨⟨c, go⟩, hsz, rfl⟩ := Option.map_eq_some_iff.1 hr
  have hgiveUp : go = false → c.rpdu = .empty → c.accepted = s.reader.accepted →
      Joined { s with
        wire := wire
        reader := (if (c, go).2 then c else c.kill).deliver io.accept } := by
    intro hgo hc hacc
    rw [if_neg (by rw [hgo]; exact Bool.false_ne_true)]
    exact h.giveUp io.accept hc hacc
  cases hio : io.sz with
  | fail e =>
    rw [hio, Connection.readSz, Option.ite_none_left_eq_some] at hsz
    obtain ⟨-, hsz⟩ := hsz
    cases hsz
    exact hgiveUp rfl hrpdu rfl
  | data bs =>
    rw [hio] at hsz
    by_cases h4 : bs.length = 4
    · have hbs : bs ≠ [] := by
        intro hnil
        rw [hnil] at h4
        cases h4
      obtain ⟨wire1, hw1, hw2⟩ : ∃ w, supply s.wire ⟨true, 4, .data bs⟩ = some w ∧
          exec supply w (if go then [⟨false, c.wanted, io.rest⟩] else []) = some wire := by
        cases go with
        | false =>
          dsimp only [Function.comp] at hw
          rw [if_neg Bool.false_ne_true, hio] at hw
          exact exec_cons_eq_some.1 hw
        | true =>
          dsimp only [Function.comp] at hw
          rw [if_pos rfl, hio] at hw
          exact exec_cons_eq_some.1 hw
      obtain ⟨hwire, hrest', hans⟩ := supply_data hw1 hpre hbs
      obtain ⟨q, todo', rfl, hlen⟩ := exists_nextPdu hpdus hrest hrest' h4
      rw [List.flatten_cons] at hrest
      have hheader : 24 ≤ q.bytes.length := q.length_bytes ▸ q.header
      by_cases hsmall : q.sz ≤ maxPdu
      · obtain ⟨d, hd, hpart, -⟩ := readSz_starts mem (s := ⟨s.reader, rest⟩) (q.isPdu hsmall)
          hpdus halive hrpdu hrest h4 hans
        obtain ⟨rfl, rfl⟩ := Prod.mk.inj (Option.some.inj (hd.symm.trans hsz))
        obtain ⟨wire2, hlast, hnil⟩ := exec_cons_eq_some.1 hw2
        obtain rfl := Option.some.inj hnil
        have hacc : d.accepted = s.reader.accepted :=
          List.append_cancel_right (hpart.pdus.trans hpdus.symm)
        have hpre' : wire1 <+: rest.drop bs.length := by
          refine (List.prefix_append_right_inj bs).1 ?_
          rw [← hwire, ← hrest']
          exact hpre
        exact h.partly hreading _ hwire hrest' hpart (q.length_bytes ▸ hsmall) (by omega) hpre'
          hacc hlast
      · -- the reader gives up a PDU that is too long
        have hbig : ntohl bs > maxPdu := by
          rw [hlen, ntohl_sz]
          omega
        rw [Connection.readSz, if_neg (by omega), if_neg (by omega), if_pos hbig] at hsz
        cases hsz
        exact hgiveUp rfl hrpdu rfl
    · rw [Connection.readSz] at hsz
      split at hsz
      · cases hsz
        exact hgiveUp rfl hrpdu rfl
      · cases hsz
        exact hgiveUp rfl hrpdu rfl

/-- **`read_cb`.** -/
theorem Joined.readCb {r : Connection × List ReadCall} {wire : List UInt8} (h : Joined s)
    (hr : s.reader.readCb mem io = some r) (hw : exec supply s.wire r.2 = some wire) :
    Joined { s with wire := wire, reader := r.1 } := by
  by_cases hdead : s.reader.dead = true
  · rw [Connection.readCb_of_dead hdead] at hr
    cases hr
    exact h.died hdead rfl
  have halive : s.reader.dead = false := by simpa using hdead
  obtain ⟨rest, hreading⟩ := h.reading halive
  have hpre := hreading.wire_prefix h.sound
  cases hreading.cut with
  | ended _ hdead' _ => exact absurd hdead' hdead
  | between todo hpdus _ hrpdu hrest => exact h.between hreading hpdus hrpdu hrest hr hw
  | within p todo k hpart =>
    have hle := hpart.le
    have hfour := hpart.four
    have hsz : s.reader.rpdu.sz = p.length := hpart.sz
    have hsolong : s.reader.rpdu.solong = k := hpart.solong
    obtain ⟨b, hb, -⟩ := hpart.buf
    have hbuf : s.reader.rpdu.buf = some b := hb
    have hp : p.length ≤ maxPdu := by
      have := hreading.small
      omega
    by_cases hk : k < p.length
    · rw [Connection.readCb, halive, if_neg (by decide),
        if_pos (.inr (by rw [hsz, hsolong]; omega)), Connection.readpdu,
        if_neg (by rw [hsz]; omega)] at hr
      cases hr
      obtain ⟨wire', hone, hnil⟩ := exec_cons_eq_some.1 hw
      obtain rfl := Option.some.inj hnil
      exact h.partly hreading [] rfl rfl hpart hp hk hpre rfl hone
    · -- a PDU refused before is offered again
      rw [Connection.readCb, halive, if_neg (by decide),
        if_neg (by rw [hbuf, hsz, hsolong]; simp; omega)] at hr
      cases hr
      obtain rfl := Option.some.inj hw
      obtain ⟨hcut, -⟩ := hpart.deliver io.accept
      exact h.read hreading [] rfl rfl hcut
        ((Connection.sameSignals_deliver _ _).dead.trans halive)
        (deliver_small hreading.small _)

theorem Joined.step {a : Pipe.Act} (h : Joined s) (hs : s.step a = some s') : Joined s' := by
  cases a with
  | send a =>
    obtain ⟨t, ht, rfl⟩ := Option.map_eq_some_iff.1 hs
    exact h.send ht
  | read mem io =>
    obtain ⟨r, hr, hs⟩ := Option.bind_eq_some_iff.1 hs
    obtain ⟨wire, hw, rfl⟩ := Option.map_eq_some_iff.1 hs
    exact h.readCb hr hw
  | die =>
    obtain rfl := Option.some.inj hs
    exact h.died rfl rfl

/-- No PDU is without bytes. -/
theorem todo_eq_nil {acc todo : List (List UInt8)} (hpdus : acc ++ todo = s.pdus)
    (hflat : todo.flatten = []) : todo = [] := by
  rw [List.flatten_eq_nil_iff] at hflat
  refine List.eq_nil_iff_forall_not_mem.2 fun p hp => ?_
  have hmem : p ∈ s.pdus := by
    rw [← hpdus]
    exact List.mem_append_right _ hp
  obtain ⟨q, -, rfl⟩ := List.mem_map.1 hmem
  have hheader : 24 ≤ q.sz := q.header
  rw [← q.length_bytes, hflat q.bytes hp] at hheader
  cases hheader

/-- Nothing on the wire, and nothing to come that is not written: the
reader has all of it. -/
theorem Joined.faithful (h : Joined s) : Faithful s where
  inOrder := h.inOrder
  all hreader hsender hbuf hwire := by
    obtain ⟨rest, hreading⟩ := h.reading hreader
    obtain ⟨taken, hout, hflat⟩ := hreading.taken
    have hwritten : s.sender.out = s.pdus.flatten := by
      cases h.sound.alive hsender with
      | idle _ hout _ => rw [hout, List.flatMap_def, Pipe.pdus]
      | busy ps p n b hw _ _ _ _ =>
        rw [hw.eq] at hbuf
        cases hbuf
    have hnil : rest = [] := by
      rw [hout, hwire, hflat, List.append_nil] at hwritten
      exact List.append_right_eq_self.1 hwritten.symm
    cases hreading.cut with
    | ended hpdus _ _ => exact .inl hpdus
    | between todo hpdus _ _ hrest =>
      rw [todo_eq_nil hpdus (hrest.symm.trans hnil), List.append_nil] at hpdus
      exact .inl hpdus
    | within p todo k hpart =>
      obtain ⟨hdrop, hflat⟩ := List.append_eq_nil_iff.1 (hpart.rest.symm.trans hnil)
      have hpdus : s.reader.accepted ++ [p] ++ todo = s.pdus := by
        rw [List.append_assoc]
        exact hpart.pdus
      have hle := hpart.le
      have hge := List.drop_eq_nil_iff.1 hdrop
      have hend := todo_eq_nil hpdus hflat
      obtain rfl : k = p.length := Nat.le_antisymm hle hge
      obtain ⟨b, hb, hbk⟩ := hpart.buf
      refine .inr ⟨p, ?_, hpart.sz, hpart.solong, b, hb, hbk.trans List.take_length⟩
      rw [← hpdus, hend, List.append_nil]

end

/-- **What is sent is what arrives.** In every state of every run, of any
number of threads that send at one end and the callback that reads at the
other, with whatever the sockets do in between: the PDUs accepted are the
first of those sent, unchanged and in order; and they are all of them
where both ends are alive, nothing is left to write and nothing is on the
wire, but perhaps for one that `got_pdu` has refused so far. -/
theorem pipe_faithful (errno errno' : Errno) (acts : List Pipe.Act) :
    Along Pipe.step Faithful (.new errno errno') acts :=
  along_invariant (fun _ _ _ h hs => h.step hs) (fun _ h => h.faithful) (joined_new errno errno')


end Yfs
