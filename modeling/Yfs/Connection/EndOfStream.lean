import Yfs.Connection.ReadBounds

/-!
# The end of the stream

A `read` that returns 0 tells that the peer has closed the connection,
and leaves `errno` as some earlier system call set it. `readpdu` knows
this where it reads a length field. Where it reads the rest of a PDU it
looks at `errno` all the same, and takes a stale `EAGAIN` for a reason to
come back later. `eofKills_iff` says that this is the only way in which
the end of the stream does not kill the connection.
-/

namespace Yfs

open Common

/-- What the thread that polls does: a system call for something else,
which leaves a value in `errno`, or a call of `read_cb`. -/
inductive PollAct where
  | other (e : Errno)
  | readCb (a : Poll)

/-- The `read` is for some bytes, and returns 0. -/
def ReadCall.AtEnd (q : ReadCall) : Prop := q.count ≠ 0 ∧ q.result = .data []

instance (q : ReadCall) : Decidable q.AtEnd := inferInstanceAs (Decidable (_ ∧ _))

namespace Connection

/-- One step of the thread that polls. -/
def pollAct (c : Connection) : PollAct → Option Connection
  | .other e => some { c with errno := e }
  | .readCb a => c.poll a

/-- What is to become of a connection at the end of the stream. -/
structure Closed (c d : Connection) : Prop where
  dead : d.dead = true
  /-- Its callbacks are removed, -/
  unwatched : d.watched = false
  /-- `send_complete_` is signalled, -/
  signalled : d.signals = c.signals + 1
  /-- and nothing is delivered any more. -/
  undelivered : ∀ as t, exec pollAct d as = some t → t.accepted = c.accepted

/-- A call of `read_cb` that meets the end of the stream closes the
connection. -/
def EofKills (c : Connection) : PollAct → Prop
  | .other _ => True
  | .readCb a => ∀ d calls, c.readCb a.mem a.io = some (d, calls) → (∃ q ∈ calls, q.AtEnd) →
      Closed c d

/-- `errno` is not `EAGAIN` when the stream ends inside a PDU. -/
def ErrnoFresh (c : Connection) : PollAct → Prop
  | .other _ => True
  | .readCb a => ∀ d calls, c.readCb a.mem a.io = some (d, calls) →
      (∃ q ∈ calls, q.isSz = false ∧ q.AtEnd) → c.errno ≠ .again

/-! ## Dead connections -/

section

variable {c d : Connection} {a : Poll}

/-- Nothing is delivered on a dead connection. -/
theorem accepted_of_dead {as : List PollAct} {t : Connection} (hdead : c.dead = true)
    (h : exec pollAct c as = some t) : t.accepted = c.accepted := by
  have hstep : ∀ (d : Connection) (b : PollAct) (d' : Connection),
      (d.dead = true ∧ d.accepted = c.accepted) → d.pollAct b = some d' →
        d'.dead = true ∧ d'.accepted = c.accepted := by
    intro d b d' hd hs
    rcases b with e | b
    · obtain rfl := Option.some.inj hs
      exact hd
    · change d.poll b = some d' at hs
      rw [poll, readCb_of_dead hd.1, Option.bind_some] at hs
      obtain rfl := Option.some.inj hs
      exact hd
  exact (exec_invariant hstep ⟨hdead, rfl⟩ h).2

theorem kill_closed (h : SameSignals c d) (hacc : d.accepted = c.accepted) : Closed c d.kill where
  dead := rfl
  unwatched := rfl
  signalled := congrArg (· + 1) h.signals
  undelivered _ _ hexec := (accepted_of_dead rfl hexec).trans hacc

/-! ## One call -/

theorem deliver_of_ne (h : d.rpdu.buf = none ∨ d.rpdu.sz ≠ d.rpdu.solong) (accept : Bool) :
    d.deliver accept = d := by
  rw [deliver]
  split
  · rfl
  · rename_i b hb
    rw [if_neg]
    rintro ⟨heq, -⟩
    rcases h with hnone | hne
    · rw [hnone] at hb
      exact absurd hb (by simp)
    · exact hne heq

/-- The length field leaves what was accepted, and `errno` unless it
fails. -/
theorem readSz_keeps {r : ReadResult} {go : Bool} {mem : ℕ → UInt8}
    (h : c.readSz mem r = some (d, go)) :
    d.accepted = c.accepted ∧ (go = true → d.errno = c.errno) := by
  rcases r with bs | e
  · rw [readSz] at h
    split at h
    · obtain ⟨rfl, rfl⟩ := h
      exact ⟨rfl, fun _ => rfl⟩
    · split at h
      · obtain ⟨rfl, rfl⟩ := h
        exact ⟨rfl, fun _ => rfl⟩
      · split at h
        · obtain ⟨rfl, rfl⟩ := h
          exact ⟨rfl, fun _ => rfl⟩
        · rw [Option.ite_none_left_eq_some, Option.ite_none_left_eq_some] at h
          obtain ⟨-, -, h⟩ := h
          obtain ⟨rfl, rfl⟩ := h
          exact ⟨rfl, fun _ => rfl⟩
  · rw [readSz, Option.ite_none_left_eq_some] at h
    obtain ⟨-, h⟩ := h
    obtain ⟨rfl, rfl⟩ := h
    exact ⟨rfl, fun h => absurd h (by decide)⟩

/-- The second `read` of `readpdu` returns 0. -/
theorem readRest_end (e : Connection) :
    e.readRest (.data []) =
      if e.errno = .again then (e, true) else ({ e with rpdu := .empty }, false) := by
  rw [readRest, if_pos List.length_nil, readFailed]

/-- What comes of the second `read`, in `read_cb`. -/
def afterEnd (e : Connection) (accept : Bool) : Connection :=
  if e.errno = .again then e.deliver accept else { e with rpdu := .empty }.kill

theorem deliver_readRest_end (e : Connection) (accept : Bool) :
    (if (e.readRest (.data [])).2 then (e.readRest (.data [])).1
      else (e.readRest (.data [])).1.kill).deliver accept = e.afterEnd accept := by
  rw [readRest_end, afterEnd]
  by_cases hagain : e.errno = .again
  · rw [if_pos hagain, if_pos hagain]
    rfl
  · rw [if_neg hagain, if_neg hagain]
    exact deliver_of_ne (.inl rfl) accept

/-- **A call that meets the end of the stream**: at a length field the
connection is killed; inside a PDU it depends on `errno`. -/
theorem eof_cases {calls : List ReadCall} {q : ReadCall} (halive : c.dead = false)
    (h : c.readCb a.mem a.io = some (d, calls)) (hq : q ∈ calls) (hend : q.AtEnd) :
    (q.isSz = true ∧ d = c.kill) ∨
      (q.isSz = false ∧ ∃ e, SameSignals c e ∧ e.accepted = c.accepted ∧ e.errno = c.errno ∧
        d = e.afterEnd a.io.accept) := by
  unfold readCb at h
  rw [if_neg (by rw [halive]; decide)] at h
  split at h
  · rename_i hread
    obtain ⟨p, hp, hd⟩ := Option.map_eq_some_iff.1 h
    obtain ⟨rfl, rfl⟩ := hd
    unfold readpdu at hp
    split at hp
    · rename_i hsz
      obtain ⟨⟨e, go⟩, he, rfl⟩ := Option.map_eq_some_iff.1 hp
      have hsame := sameSignals_readSz he
      obtain ⟨hacc, herrno⟩ := readSz_keeps he
      by_cases hgo : go = true
      · -- the length field is read, so the 0 is that of the second `read`
        subst hgo
        dsimp only at hq ⊢
        rw [if_pos rfl] at hq ⊢
        rcases List.mem_cons.1 hq with rfl | hq
        · rcases readSz_cases he with ⟨hfalse, -⟩ | ⟨bs, hbs, hlen, -⟩
          · exact absurd hfalse (by decide)
          · have hnil : a.io.sz = .data [] := hend.2
            rw [hbs, ReadResult.data.injEq] at hnil
            rw [hnil] at hlen
            exact absurd hlen (by decide)
        · obtain rfl := List.mem_singleton.1 hq
          have hrest : a.io.rest = .data [] := hend.2
          refine .inr ⟨rfl, e, hsame, hacc, herrno rfl, ?_⟩
          rw [hrest]
          exact deliver_readRest_end e a.io.accept
      · rw [Bool.not_eq_true] at hgo
        subst hgo
        -- the 0 ended the first `read`, and there is no PDU to deliver
        have hstop : ¬ (false = true) := Bool.false_ne_true
        dsimp only at hq ⊢
        rw [if_neg hstop] at hq ⊢
        obtain rfl := List.mem_singleton.1 hq
        refine .inl ⟨rfl, ?_⟩
        have hnil : a.io.sz = .data [] := hend.2
        rw [hnil, readSz, if_pos List.length_nil, Option.some.injEq, Prod.mk.injEq] at he
        rw [← he.1]
        refine deliver_of_ne ?_ a.io.accept
        rcases hread with hnone | hlt
        · exact .inl (Option.isNone_iff_eq_none.1 hnone)
        · exact .inr (Int.ne_of_gt hlt)
    · -- in the middle of a PDU there is the second `read` only
      obtain rfl := Option.some.inj hp
      obtain rfl := List.mem_singleton.1 hq
      have hrest : a.io.rest = .data [] := hend.2
      refine .inr ⟨rfl, c, ⟨rfl, rfl⟩, rfl, rfl, ?_⟩
      dsimp only
      rw [hrest]
      exact deliver_readRest_end c a.io.accept
  · -- a PDU waits for `got_pdu`, and nothing is read
    obtain ⟨-, rfl⟩ := Prod.mk.inj (Option.some.inj h)
    exact absurd hq List.not_mem_nil

/-- A dead connection makes no `read`. -/
theorem alive_of_read {calls : List ReadCall} {q : ReadCall}
    (h : c.readCb a.mem a.io = some (d, calls)) (hq : q ∈ calls) : c.dead = false := by
  rw [← Bool.not_eq_true]
  intro hdead
  rw [readCb_of_dead hdead] at h
  obtain ⟨-, rfl⟩ := Prod.mk.inj (Option.some.inj h)
  exact List.not_mem_nil hq

theorem eofKills_of_errnoFresh {act : PollAct} (h : c.ErrnoFresh act) : c.EofKills act := by
  rcases act with e | a
  · trivial
  · rintro d calls hcb ⟨q, hq, hend⟩
    rcases eof_cases (alive_of_read hcb hq) hcb hq hend with
      ⟨-, rfl⟩ | ⟨hisSz, e, hsame, hacc, herrno, rfl⟩
    · exact kill_closed ⟨rfl, rfl⟩ rfl
    · have hfresh := h _ _ hcb ⟨q, hq, hisSz, hend⟩
      rw [afterEnd, if_neg (by rw [herrno]; exact hfresh)]
      exact kill_closed ⟨hsame.dead, hsame.signals⟩ hacc

/-- With a stale `EAGAIN` the connection lives on. -/
theorem errnoFresh_of_eofKills {act : PollAct} (h : c.EofKills act) : c.ErrnoFresh act := by
  rcases act with e | a
  · trivial
  · rintro d calls hcb ⟨q, hq, hisSz, hend⟩ hagain
    have halive := alive_of_read hcb hq
    have hclosed := h _ _ hcb ⟨q, hq, hend⟩
    rcases eof_cases halive hcb hq hend with ⟨htrue, -⟩ | ⟨-, e, hsame, -, herrno, rfl⟩
    · rw [hisSz] at htrue
      exact absurd htrue (by decide)
    · have hdead := hclosed.dead
      rw [afterEnd, if_pos (herrno.trans hagain), (sameSignals_deliver e _).dead, hsame.dead,
        halive] at hdead
      exact absurd hdead (by decide)

end

/-- **When the end of the stream kills the connection**, over every
history of the thread that polls. -/
theorem eofKills_iff (errno : Errno) (acts : List PollAct) :
    Steps pollAct EofKills (.new errno) acts ↔ Steps pollAct ErrnoFresh (.new errno) acts :=
  ⟨Steps.imp fun _ _ h => errnoFresh_of_eofKills h, Steps.imp fun _ _ h => eofKills_of_errnoFresh h⟩

/-- A PDU of 24 bytes is begun, with `errno` left at `EAGAIN`, and then the
stream ends. -/
def endsInPdu : List PollAct :=
  [.other .again, .readCb ⟨fun _ => 0, ⟨.data [0, 0, 0, 24], .data [7], true⟩⟩,
    .readCb ⟨fun _ => 0, ⟨.data [], .data [], true⟩⟩]

/-- The connection is not killed. -/
theorem not_eofKills_endsInPdu : ¬ Steps pollAct EofKills (.new .other) endsInPdu := by
  intro h
  have hkills := (h.2 _ rfl).2 _ rfl
  have hclosed := hkills.1 _ _ rfl ⟨⟨false, 19, .data []⟩, by decide, by decide⟩
  exact absurd hclosed.dead (by decide)

end Connection

end Yfs
