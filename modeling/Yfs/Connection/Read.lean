import Yfs.Marshall.Buffer

/-!
# The reading side of a connection

`connection::read_cb` and `connection::readpdu` of `rpc/connection.cc`.
The results of the `read` calls and the answer of `mgr_->got_pdu` are
inputs of a call, `none` is a failed `assert`, and the calls of `read`
that were made are part of the result. `errno` is a field: a `read` that
returns 0 leaves it as it was, and `readpdu` looks at it all the same.
-/

namespace Yfs

open Common

/-- The values of `errno` that the source tells apart. -/
inductive Errno where
  /-- `EAGAIN`. -/
  | again
  /-- Any other. -/
  | other
deriving DecidableEq

/-- What a call of `read` returns. -/
inductive ReadResult where
  /-- A count, not negative, and the bytes stored. A count of 0 is the
  end of the stream. -/
  | data (bs : List UInt8)
  /-- A negative count, with `errno` set. -/
  | fail (e : Errno)
deriving DecidableEq

/-- A call of `read`. -/
structure ReadCall where
  /-- It is the one for the length field. -/
  isSz : Bool
  /-- The number of bytes asked for. -/
  count : ℕ
  /-- What it returned. -/
  result : ReadResult
deriving DecidableEq

/-- `connection::charbuf`. -/
structure Charbuf where
  /-- The memory from `buf` on, unless `buf` is null. -/
  buf : Option (ℕ → UInt8)
  /-- The number of bytes allocated there. -/
  cap : ℕ
  /-- `sz`. -/
  sz : ℤ
  /-- `solong`. -/
  solong : ℤ

/-- `charbuf()`. -/
def Charbuf.empty : Charbuf := ⟨none, 0, 0, 0⟩

/-- What reading uses of a `connection`. -/
structure Connection where
  /-- `rpdu_`. -/
  rpdu : Charbuf
  /-- `dead_`. -/
  dead : Bool
  /-- `errno` of the thread that polls. -/
  errno : Errno
  /-- The callback is registered with the `PollMgr`. -/
  watched : Bool
  /-- How often `send_complete_` was signalled. -/
  signals : ℕ
  /-- The PDUs `got_pdu` accepted, oldest first. -/
  accepted : List (List UInt8)

/-- What a call of `read_cb` meets: the result of the `read` of the
length field and of the one after it, if they are made, and the answer of
`got_pdu`, if it is asked. -/
structure ReadIn where
  sz : ReadResult
  rest : ReadResult
  accept : Bool
deriving DecidableEq

/-- `ntohl` of the four bytes of `sz1`, as an `int`. -/
def ntohl (bs : List UInt8) : ℤ :=
  (join32 (bs.getD 0 0) (bs.getD 1 0) (bs.getD 2 0) (bs.getD 3 0)).toInt32.toInt

/-- The argument of `malloc`: `sz+sizeof(sz)` is a `size_t`. -/
def allocSize (sz : ℤ) : ℕ := ((sz + 4) % 2 ^ 64).toNat

namespace Connection

/-- A connection just constructed. -/
def new (errno : Errno) : Connection := ⟨.empty, false, errno, true, 0, []⟩

/-- The first part of `readpdu`: the length field. The result says
whether to go on. `malloc` returns null for a size above `PTRDIFF_MAX`,
and `mem` is the memory it returns else. -/
def readSz (mem : ℕ → UInt8) (c : Connection) : ReadResult → Option (Connection × Bool)
  | .fail e => if e = .again then none else some ({ c with errno := e }, false)
  | .data bs =>
    if bs.length = 0 then some (c, false)
    else if bs.length ≠ 4 then some (c, false)
    else if ntohl bs > maxPdu then some (c, false)
    else if c.rpdu.buf.isSome then none
    else if allocSize (ntohl bs) ≥ 2 ^ 63 then none
    else
      some ({ c with rpdu := ⟨some (writeAt mem 0 bs), allocSize (ntohl bs), ntohl bs, 4⟩ }, true)

/-- `rpdu_.sz - rpdu_.solong`, as the `size_t` that `read` takes. -/
def wanted (c : Connection) : ℕ := ((c.rpdu.sz - c.rpdu.solong) % 2 ^ 64).toNat

/-- The branch of `readpdu` for `n <= 0`. -/
def readFailed (c : Connection) : Connection × Bool :=
  if c.errno = .again then (c, true) else ({ c with rpdu := .empty }, false)

/-- The second part of `readpdu`. -/
def readRest (c : Connection) : ReadResult → Connection × Bool
  | .fail e => readFailed { c with errno := e }
  | .data bs =>
    if bs.length = 0 then readFailed c
    else
      let buf := c.rpdu.buf.map fun b => writeAt b c.rpdu.solong.toNat bs
      ({ c with rpdu := { c.rpdu with buf := buf, solong := c.rpdu.solong + bs.length } }, true)

/-- `connection::readpdu`. -/
def readpdu (mem : ℕ → UInt8) (c : Connection) (io : ReadIn) :
    Option ((Connection × Bool) × List ReadCall) :=
  if c.rpdu.sz = 0 then
    (c.readSz mem io.sz).map fun r =>
      if r.2 then (r.1.readRest io.rest, [⟨true, 4, io.sz⟩, ⟨false, r.1.wanted, io.rest⟩])
      else (r, [⟨true, 4, io.sz⟩])
  else some (c.readRest io.rest, [⟨false, c.wanted, io.rest⟩])

/-- What `read_cb` does when `readpdu` fails. -/
def kill (c : Connection) : Connection :=
  { c with watched := false, dead := true, signals := c.signals + 1 }

/-- The end of `read_cb`: a complete PDU goes to `got_pdu`, and stays
where it is if refused. -/
def deliver (c : Connection) (accept : Bool) : Connection :=
  match c.rpdu.buf with
  | none => c
  | some b =>
    if c.rpdu.sz = c.rpdu.solong ∧ accept = true then
      { c with rpdu := .empty, accepted := c.accepted ++ [bytesAt b 0 c.rpdu.sz.toNat] }
    else c

/-- `connection::read_cb`. -/
def readCb (mem : ℕ → UInt8) (c : Connection) (io : ReadIn) :
    Option (Connection × List ReadCall) :=
  if c.dead then some (c, [])
  else if c.rpdu.buf.isNone ∨ c.rpdu.solong < c.rpdu.sz then
    (c.readpdu mem io).map fun r =>
      ((if r.1.2 then r.1.1 else r.1.1.kill).deliver io.accept, r.2)
  else some (c.deliver io.accept, [])

section

variable {mem : ℕ → UInt8} {c d : Connection} {io : ReadIn}

/-- A dead connection is left alone by `read_cb`. -/
theorem readCb_of_dead (h : c.dead = true) : c.readCb mem io = some (c, []) := by
  rw [readCb, if_pos h]

/-- A call on a live connection reads, or has a whole PDU at hand. -/
theorem readCb_cases {r : Connection × List ReadCall} (halive : c.dead = false)
    (h : c.readCb mem io = some r) :
    r = (c.deliver io.accept, []) ∨
      ∃ p, c.readpdu mem io = some p ∧
        r = ((if p.1.2 then p.1.1 else p.1.1.kill).deliver io.accept, p.2) := by
  rw [readCb, if_neg (by rw [halive]; decide)] at h
  split at h
  · obtain ⟨p, hp, rfl⟩ := Option.map_eq_some_iff.1 h
    exact .inr ⟨p, hp, rfl⟩
  · cases h
    exact .inl rfl

/-- What is left to `read_cb`: whether the connection is dead, and the
signals. -/
structure SameSignals (c d : Connection) : Prop where
  dead : d.dead = c.dead
  signals : d.signals = c.signals

theorem sameSignals_deliver (c : Connection) (accept : Bool) :
    SameSignals c (c.deliver accept) := by
  rw [deliver]
  split
  · exact ⟨rfl, rfl⟩
  · split
    · exact ⟨rfl, rfl⟩
    · exact ⟨rfl, rfl⟩

theorem sameSignals_readRest (c : Connection) (r : ReadResult) :
    SameSignals c (c.readRest r).1 := by
  have hfailed : ∀ e : Connection, SameSignals e e.readFailed.1 := by
    intro e
    rw [readFailed]
    split
    · exact ⟨rfl, rfl⟩
    · exact ⟨rfl, rfl⟩
  cases r with
  | fail e => exact ⟨(hfailed _).dead, (hfailed _).signals⟩
  | data bs =>
    rw [readRest]
    split
    · exact hfailed c
    · exact ⟨rfl, rfl⟩

theorem sameSignals_readSz {r : ReadResult} {go : Bool} (h : c.readSz mem r = some (d, go)) :
    SameSignals c d := by
  cases r with
  | fail e =>
    rw [readSz, Option.ite_none_left_eq_some] at h
    cases h.2
    exact ⟨rfl, rfl⟩
  | data bs =>
    rw [readSz] at h
    split at h
    · cases h
      exact ⟨rfl, rfl⟩
    · split at h
      · cases h
        exact ⟨rfl, rfl⟩
      · split at h
        · cases h
          exact ⟨rfl, rfl⟩
        · rw [Option.ite_none_left_eq_some, Option.ite_none_left_eq_some] at h
          cases h.2.2
          exact ⟨rfl, rfl⟩

theorem sameSignals_readpdu {r : (Connection × Bool) × List ReadCall}
    (h : c.readpdu mem io = some r) : SameSignals c r.1.1 := by
  rw [readpdu] at h
  split at h
  · obtain ⟨⟨d, go⟩, hd, rfl⟩ := Option.map_eq_some_iff.1 h
    have hsz := sameSignals_readSz hd
    cases go with
    | false => exact hsz
    | true =>
      have hrest := sameSignals_readRest d io.rest
      exact ⟨hrest.dead.trans hsz.dead, hrest.signals.trans hsz.signals⟩
  · cases h
    exact sameSignals_readRest c io.rest

/-- `read_cb` kills the connection and signals, or does neither. -/
theorem sameSignals_or_killed {calls : List ReadCall} (h : c.readCb mem io = some (d, calls)) :
    SameSignals c d ∨ (d.dead = true ∧ d.signals = c.signals + 1) := by
  cases hdead : c.dead with
  | true =>
    rw [readCb_of_dead hdead] at h
    cases h
    exact .inl ⟨rfl, rfl⟩
  | false =>
    rcases readCb_cases hdead h with heq | ⟨p, hp, heq⟩
    · cases heq
      exact .inl (sameSignals_deliver c io.accept)
    · have hpdu := sameSignals_readpdu hp
      cases heq
      cases p.1.2 with
      | true =>
        have hd := sameSignals_deliver p.1.1 io.accept
        exact .inl ⟨hd.dead.trans hpdu.dead, hd.signals.trans hpdu.signals⟩
      | false =>
        have hd := sameSignals_deliver p.1.1.kill io.accept
        exact .inr ⟨hd.dead, hd.signals.trans (congrArg (· + 1) hpdu.signals)⟩

end

end Connection

end Yfs
