import Yfs.Common.Run
import Yfs.Connection.Read

/-!
# The bounds of the incoming buffer

What a peer sends is any bytes at all, the length field included, and
`read` returns as many of them as it likes up to what it was asked for.
`readpdu` compares the length with `MAX_PDU` only, as a signed number,
and takes the four bytes of the field itself off it afterwards.
`readBounds_iff` says that the buffer is kept within its bounds, and no
`read` asked for more than is left of it, exactly when no length field
lies between -4 and 3: a smaller one does not get past `malloc`.
-/

namespace Yfs

open Common

/-- A call of `read_cb`: the memory `malloc` returns, if it is called, and
what the call meets. -/
structure Poll where
  mem : ℕ → UInt8
  io : ReadIn

/-- `read` returns no more than it was asked for. -/
def ReadCall.possible (q : ReadCall) : Bool :=
  match q.result with
  | .fail _ => true
  | .data bs => decide (bs.length ≤ q.count)

namespace Connection

/-- A call of `read_cb` whose `read` calls return what they can. -/
def poll (c : Connection) (a : Poll) : Option Connection :=
  (c.readCb a.mem a.io).bind fun r => if r.2.all ReadCall.possible then some r.1 else none

/-- The connection as the second `read` of `readpdu` finds it. -/
def atRest (c : Connection) (a : Poll) : Connection :=
  if c.rpdu.sz = 0 then ((c.readSz a.mem a.io.sz).map Prod.fst).getD c else c

/-- The bytes left where a `read` stores: in `sz1`, or in the buffer. -/
def room (c : Connection) (a : Poll) (q : ReadCall) : ℤ :=
  if q.isSz then 4 else (c.atRest a).rpdu.cap - (c.atRest a).rpdu.solong

/-- What is to hold of the buffer while there is one. -/
def BufBounded (c : Connection) : Prop :=
  c.rpdu.buf.isSome → 4 ≤ c.rpdu.solong ∧ c.rpdu.solong ≤ c.rpdu.sz ∧ c.rpdu.sz ≤ maxPdu

/-- What is to hold of the `read` calls of a call of `read_cb`. -/
def ReadBounded (c : Connection) (a : Poll) : Prop :=
  ∀ r, c.readCb a.mem a.io = some r → ∀ q ∈ r.2, (q.count : ℤ) ≤ c.room a q

/-- The length field, if this call reads one, is not among those that are
allocated for and do not cover themselves. -/
def SaneLength (c : Connection) (a : Poll) : Prop :=
  c.dead = false → c.rpdu.buf = none →
    ∀ bs, a.io.sz = .data bs → bs.length = 4 → ntohl bs < -4 ∨ 4 ≤ ntohl bs

/-! ## The buffer of a run -/

/-- A PDU on its way, of which `solong` bytes are there. -/
structure Filling (c : Connection) : Prop where
  buf : c.rpdu.buf.isSome
  four : 4 ≤ c.rpdu.solong
  le : c.rpdu.solong ≤ c.rpdu.sz
  max : c.rpdu.sz ≤ maxPdu
  cap : (c.rpdu.cap : ℤ) = c.rpdu.sz + 4

/-- No PDU on its way, or one within its bounds. -/
inductive Within (c : Connection) : Prop
  | idle (hbuf : c.rpdu.buf = none) (hsz : c.rpdu.sz = 0)
  | filling (h : c.Filling)

section

variable {c d : Connection} {a : Poll} {mem : ℕ → UInt8} {io : ReadIn}

theorem Within.bufBounded (h : c.Within) : c.BufBounded := by
  intro hbuf
  cases h with
  | idle hnone =>
    rw [hnone] at hbuf
    cases hbuf
  | filling h => exact ⟨h.four, h.le, h.max⟩

theorem within_of_rpdu_eq (h : c.Within) (hd : d.rpdu = c.rpdu) : d.Within := by
  cases h with
  | idle hbuf hsz => exact .idle (hd ▸ hbuf) (hd ▸ hsz)
  | filling h =>
    obtain ⟨hbuf, hfour, hle, hmax, hcap⟩ := h
    rw [← hd] at hbuf hfour hle hmax hcap
    exact .filling ⟨hbuf, hfour, hle, hmax, hcap⟩

theorem within_of_rpdu_empty (hd : d.rpdu = .empty) : d.Within := by
  refine .idle ?_ ?_
  · rw [hd, Charbuf.empty]
  · rw [hd, Charbuf.empty]

theorem Filling.sz_ne_zero (h : c.Filling) : c.rpdu.sz ≠ 0 := by
  have := h.four
  have := h.le
  omega

/-- The second `read` asks for what is missing. -/
theorem Filling.wanted_eq (h : c.Filling) : (c.wanted : ℤ) = c.rpdu.sz - c.rpdu.solong := by
  have hmax : (maxPdu : ℤ) < 2 ^ 63 := by decide
  have := h.four
  have := h.le
  have := h.max
  rw [wanted, Int.emod_eq_of_lt (by omega) (by omega)]
  omega

/-- Where the length does not cover its own field, the difference wraps. -/
theorem wanted_of_small (hlo : -4 ≤ c.rpdu.sz) (hhi : c.rpdu.sz ≤ 3) (hsolong : c.rpdu.solong = 4) :
    2 ^ 63 ≤ (c.wanted : ℤ) := by
  rw [wanted, hsolong]
  omega

/-! ## What one call does -/

/-- What came of the length field. -/
theorem readSz_cases {r : ReadResult} {go : Bool} (h : c.readSz mem r = some (d, go)) :
    (go = false ∧ d.rpdu = c.rpdu) ∨
      ∃ bs, r = .data bs ∧ bs.length = 4 ∧ go = true ∧ ntohl bs ≤ maxPdu ∧ -4 ≤ ntohl bs ∧
        d.rpdu = ⟨some (writeAt mem 0 bs), allocSize (ntohl bs), ntohl bs, 4⟩ := by
  cases r with
  | fail e =>
    rw [readSz, Option.ite_none_left_eq_some] at h
    cases h.2
    exact .inl ⟨rfl, rfl⟩
  | data bs =>
    rw [readSz] at h
    split at h
    · cases h
      exact .inl ⟨rfl, rfl⟩
    · split at h
      · cases h
        exact .inl ⟨rfl, rfl⟩
      · rename_i hlen
        split at h
        · cases h
          exact .inl ⟨rfl, rfl⟩
        · rename_i hmax
          rw [Option.ite_none_left_eq_some, Option.ite_none_left_eq_some] at h
          obtain ⟨-, halloc, h⟩ := h
          cases h
          refine .inr ⟨bs, rfl, not_not.1 hlen, rfl, Int.not_lt.1 hmax, ?_, rfl⟩
          -- below -4 the size asked of `malloc` is above `PTRDIFF_MAX`
          have hint : -2 ^ 31 ≤ ntohl bs := Int32.le_toInt _
          unfold allocSize at halloc
          omega

theorem cap_of_length {bs : List UInt8} (hlo : -4 ≤ ntohl bs) (hmax : ntohl bs ≤ maxPdu) :
    (allocSize (ntohl bs) : ℤ) = ntohl bs + 4 := by
  have : (maxPdu : ℤ) < 2 ^ 63 := by decide
  unfold allocSize
  omega

/-- The `read` calls of `readpdu`, and where the second one stores. -/
theorem readpdu_cases {r : (Connection × Bool) × List ReadCall}
    (h : c.readpdu a.mem a.io = some r) :
    (r.1.1.rpdu = c.rpdu ∧ r.2 = [⟨true, 4, a.io.sz⟩]) ∨
      (c.rpdu.sz = 0 → ∃ d, c.readSz a.mem a.io.sz = some (d, true) ∧ c.atRest a = d) ∧
        r.1 = (c.atRest a).readRest a.io.rest ∧
        ∃ first, r.2 = first ++ [⟨false, (c.atRest a).wanted, a.io.rest⟩] ∧
          ∀ q ∈ first, q = ⟨true, 4, a.io.sz⟩ := by
  rw [readpdu] at h
  split at h
  · rename_i hsz
    obtain ⟨⟨d, go⟩, hd, rfl⟩ := Option.map_eq_some_iff.1 h
    have hrest : c.atRest a = d := by
      rw [atRest, if_pos hsz, hd]
      rfl
    cases go with
    | false =>
      refine .inl ⟨?_, rfl⟩
      rcases readSz_cases hd with ⟨-, hrpdu⟩ | ⟨bs, -, -, hgo, -⟩
      · exact hrpdu
      · cases hgo
    | true =>
      refine .inr ⟨fun _ => ⟨d, hd, hrest⟩, ?_, [⟨true, 4, a.io.sz⟩], ?_, ?_⟩
      · rw [hrest]
        rfl
      · rw [hrest]
        rfl
      · exact fun q hq => List.mem_singleton.1 hq
  · rename_i hsz
    cases h
    have hrest : c.atRest a = c := by rw [atRest, if_neg hsz]
    rw [hrest]
    exact .inr ⟨fun h0 => absurd h0 hsz, rfl, [], rfl, by simp⟩

/-- After a sane length field the second `read` finds a buffer within its
bounds. -/
theorem Within.atRest_filling (h : c.Within) (halive : c.dead = false) (hsane : c.SaneLength a)
    (hd : c.rpdu.sz = 0 → ∃ d, c.readSz a.mem a.io.sz = some (d, true) ∧ c.atRest a = d) :
    (c.atRest a).Filling := by
  cases h with
  | filling h =>
    rw [atRest, if_neg h.sz_ne_zero]
    exact h
  | idle hbuf hsz =>
    obtain ⟨d, hread, hrest⟩ := hd hsz
    rw [hrest]
    rcases readSz_cases hread with ⟨hgo, -⟩ | ⟨bs, hbs, hlen, -, hmax, hlo, hrpdu⟩
    · cases hgo
    · have h4 : 4 ≤ ntohl bs := (hsane halive hbuf bs hbs hlen).resolve_left (by omega)
      have hsz : d.rpdu.sz = ntohl bs := by rw [hrpdu]
      have hsolong : d.rpdu.solong = 4 := by rw [hrpdu]
      have hcap : d.rpdu.cap = allocSize (ntohl bs) := by rw [hrpdu]
      have halloc := cap_of_length hlo hmax
      refine ⟨?_, by omega, by omega, by omega, by omega⟩
      rw [hrpdu]
      rfl

/-- What the second `read` leaves. -/
theorem Filling.readRest (h : c.Filling) {r : ReadResult}
    (hr : ReadCall.possible ⟨false, c.wanted, r⟩ = true) : (c.readRest r).1.Within := by
  have hfailed : ∀ d : Connection, d.rpdu = c.rpdu → d.readFailed.1.Within := by
    intro d hd
    rw [readFailed]
    split
    · exact within_of_rpdu_eq (.filling h) hd
    · exact within_of_rpdu_empty rfl
  cases r with
  | fail e => exact hfailed _ rfl
  | data bs =>
    rw [Connection.readRest]
    split
    · exact hfailed c rfl
    · have hwanted := h.wanted_eq
      have hle : bs.length ≤ c.wanted := of_decide_eq_true hr
      have hfour := h.four
      refine .filling ⟨by simpa using h.buf, ?_, ?_, h.max, h.cap⟩
      · show 4 ≤ c.rpdu.solong + bs.length
        omega
      · show c.rpdu.solong + bs.length ≤ c.rpdu.sz
        omega

theorem Within.deliver (h : c.Within) (accept : Bool) : (c.deliver accept).Within := by
  rw [Connection.deliver]
  split
  · exact h
  · split
    · exact within_of_rpdu_empty rfl
    · exact h

/-- **A call keeps the buffer within its bounds.** -/
theorem Within.poll (h : c.Within) (hsane : c.SaneLength a) (hd : c.poll a = some d) :
    d.Within := by
  obtain ⟨r, hr, hd⟩ := Option.bind_eq_some_iff.1 hd
  rw [Option.ite_none_right_eq_some] at hd
  obtain ⟨hposs, hd⟩ := hd
  cases hd
  cases hdead : c.dead with
  | true =>
    rw [readCb_of_dead hdead] at hr
    cases hr
    exact h
  | false =>
    rcases readCb_cases hdead hr with rfl | ⟨p, hp, rfl⟩
    · exact h.deliver _
    · have hp1 : p.1.1.Within := by
        rcases readpdu_cases hp with ⟨hrpdu, -⟩ | ⟨hrest, hp1, first, hcalls, -⟩
        · exact within_of_rpdu_eq h hrpdu
        · rw [hp1]
          refine (h.atRest_filling hdead hsane hrest).readRest ?_
          rw [List.all_eq_true] at hposs
          refine hposs _ ?_
          rw [hcalls]
          exact List.mem_append_right _ (List.mem_singleton_self _)
      refine Within.deliver ?_ _
      split
      · exact hp1
      · exact within_of_rpdu_eq hp1 rfl

/-- And asks for no more than there is room for. -/
theorem Within.readBounded (h : c.Within) (hsane : c.SaneLength a) : c.ReadBounded a := by
  intro r hr q hq
  cases hdead : c.dead with
  | true =>
    rw [readCb_of_dead hdead] at hr
    cases hr
    cases hq
  | false =>
    rcases readCb_cases hdead hr with rfl | ⟨p, hp, rfl⟩
    · cases hq
    · rcases readpdu_cases hp with ⟨-, hcalls⟩ | ⟨hrest, -, first, hcalls, hfirst⟩
      · rw [hcalls, List.mem_singleton] at hq
        rw [hq]
        exact Int.le_refl _
      · rw [hcalls, List.mem_append, List.mem_singleton] at hq
        rcases hq with hq | rfl
        · rw [hfirst q hq]
          exact Int.le_refl _
        · have hfill := h.atRest_filling hdead hsane hrest
          have hwanted := hfill.wanted_eq
          have hcap := hfill.cap
          show ((c.atRest a).wanted : ℤ) ≤ (c.atRest a).rpdu.cap - (c.atRest a).rpdu.solong
          omega

/-- A length field that does not cover itself has the second `read` ask
for more than there is. -/
theorem Within.saneLength (h : c.Within) (hb : c.ReadBounded a) : c.SaneLength a := by
  intro halive hbuf bs hbs hlen
  by_contra hc
  have hlo : -4 ≤ ntohl bs := by omega
  have hhi : ntohl bs ≤ 3 := by omega
  have hsz : c.rpdu.sz = 0 := by
    cases h with
    | idle _ hsz => exact hsz
    | filling h =>
      have := h.buf
      rw [hbuf] at this
      cases this
  have hread : c.readSz a.mem a.io.sz = some ({ c with
      rpdu := ⟨some (writeAt a.mem 0 bs), allocSize (ntohl bs), ntohl bs, 4⟩ }, true) := by
    have hmax : (3 : ℤ) ≤ maxPdu := by decide
    have halloc : allocSize (ntohl bs) < 2 ^ 63 := by
      unfold allocSize
      omega
    rw [hbs, readSz, if_neg (by omega), if_neg (not_not.2 hlen), if_neg (by omega),
      if_neg (by rw [hbuf]; decide), if_neg (by omega)]
  have hrest : c.atRest a = { c with
      rpdu := ⟨some (writeAt a.mem 0 bs), allocSize (ntohl bs), ntohl bs, 4⟩ } := by
    rw [atRest, if_pos hsz, hread]
    rfl
  have hcall : ∃ r, c.readCb a.mem a.io = some r ∧
      ⟨false, (c.atRest a).wanted, a.io.rest⟩ ∈ r.2 := by
    rw [readCb, if_neg (by rw [halive]; decide), if_pos (.inl (by rw [hbuf]; rfl)), readpdu,
      if_pos hsz, hread, hrest]
    exact ⟨_, rfl, List.mem_cons_of_mem _ (List.mem_singleton_self _)⟩
  obtain ⟨r, hr, hmem⟩ := hcall
  have hle : ((c.atRest a).wanted : ℤ) ≤ (c.atRest a).rpdu.cap - (c.atRest a).rpdu.solong :=
    hb r hr _ hmem
  have hwanted : 2 ^ 63 ≤ ((c.atRest a).wanted : ℤ) := by
    refine wanted_of_small ?_ ?_ ?_
    · rw [hrest]
      exact hlo
    · rw [hrest]
      exact hhi
    · rw [hrest]
  rw [hrest] at hle hwanted
  have halloc : (allocSize (ntohl bs) : ℤ) ≤ 7 := by
    unfold allocSize
    omega
  dsimp only at hle
  omega

end

/-- **When the incoming buffer is kept within its bounds**, over every
stream and every way it is cut into reads. -/
theorem readBounds_iff (errno : Errno) (as : List Poll) :
    (Along poll BufBounded (.new errno) as ∧ Steps poll ReadBounded (.new errno) as) ↔
      Steps poll SaneLength (.new errno) as := by
  have hnew : (new errno).Within := within_of_rpdu_empty rfl
  constructor
  · intro h
    exact steps_of_steps (fun c a d hc hb hd => hc.poll (hc.saneLength hb) hd)
      (fun c a hc hb => hc.saneLength hb) hnew h.2
  · intro h
    exact ⟨along_of_steps (fun c a d hc hs hd => hc.poll hs hd) (fun c hc => hc.bufBounded) hnew h,
      steps_of_steps (fun c a d hc hs hd => hc.poll hs hd) (fun c a hc hs => hc.readBounded hs)
        hnew h⟩

/-- A length field of 0, and a second `read` that is refused. -/
def zeroLength : Poll := ⟨fun _ => 0, ⟨.data [0, 0, 0, 0], .fail .other, false⟩⟩

/-- A length field of 0 has `read` asked for all but four of 2⁶⁴ bytes. -/
theorem zeroLength_unbounded :
    ¬ ReadBounded (.new .other) zeroLength ∧
      ¬ (Along poll BufBounded (.new .other) [zeroLength] ∧
        Steps poll ReadBounded (.new .other) [zeroLength]) := by
  have hunread : ¬ ReadBounded (.new .other) zeroLength := by
    intro h
    have := h _ rfl ⟨false, 2 ^ 64 - 4, .fail .other⟩ (by decide)
    exact absurd this (by decide)
  exact ⟨hunread, fun h => hunread h.2.1⟩

end Connection

end Yfs
