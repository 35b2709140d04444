import Yfs.Common.Pick
import Yfs.Common.Run
import Yfs.Connection.Sending

/-!
# Calls of `send` asleep on a dead connection

`dead_` is set in four places. `read_cb` and `write_cb` signal
`send_complete_` there, and `send` wakes the calls that wait behind it
when it returns; `closeconn` signals nothing. A call that waits for its
PDU to be written then sleeps for good, and so do the calls behind it.
`roused_iff` says that this is the only way: no call is left asleep
exactly when `closeconn` does not find one that waits on `send_complete_`.
-/

namespace Yfs

open Common

/-! ## Sleep -/

/-- What counts of a connection here. -/
structure SendView where
  dead : Bool
  /-- `wpdu_.buf` is not null. -/
  held : Bool
  waiters : ℤ
  broadcasts : ℕ
  signals : ℕ

def Outgoing.view (s : Outgoing) : SendView :=
  ⟨s.conn.dead, s.wpdu.buf.isSome, s.waiters, s.broadcasts, s.conn.signals⟩

/-- How often what a call waits for was signalled. -/
def SendView.signalled (v : SendView) : SendPc → ℕ
  | .waiting => v.broadcasts
  | .completing _ => v.signals
  | _ => 0

/-- A connection with its calls of `send`, and for each of them, in the
order of `senders`, how often what it waits for had been signalled when it
went to sleep. At most one call waits on `send_complete_`, which a signal
then wakes (`Tended.held`). -/
structure Sleepers where
  out : Outgoing
  marks : List ℕ

/-- A call of `send`, with its mark. -/
def CallIn (senders : List Sender) (marks : List ℕ) (t : Sender) (m : ℕ) : Prop :=
  ∃ i : ℕ, senders[i]? = some t ∧ marks[i]? = some m

/-- A call that waits on a condition variable, not signalled since. -/
def Asleep (v : SendView) (t : Sender) (m : ℕ) : Prop :=
  (t.pc = .waiting ∨ ∃ k, t.pc = .completing k) ∧ m = v.signalled t.pc

/-- The marks when one of `n` calls went on: it has returned, or is the
first of the calls, and asleep if it waits. -/
def marked (marks : List ℕ) (n : ℕ) (v : SendView) : List Sender → List ℕ
  | [] => marks
  | t :: rest => if rest.length + 1 = n then v.signalled t.pc :: marks else marks

namespace Sleepers

/-- A connection just constructed. -/
def new (errno : Errno) : Sleepers := ⟨.new errno, []⟩

/-- One step. -/
def step (p : Sleepers) (a : Outgoing.Act) : Option Sleepers :=
  (p.out.step a).map fun s' => ⟨s',
    match a with
    | .send _ => p.marks ++ [0]
    | .run k _ => marked (p.marks.eraseIdx k) p.out.senders.length s'.view s'.senders
    | _ => p.marks⟩

/-- Some call of `send` that is not asleep itself will wake this one. -/
def Saved (p : Sleepers) (t : Sender) (m : ℕ) : Prop :=
  ∃ (j : ℕ) (u : Sender) (n : ℕ), p.out.senders[j]? = some u ∧ p.marks[j]? = some n ∧
    ¬ Asleep p.out.view u n ∧ ∀ r, ∃ p', p.step (.run j r) = some p' ∧ ¬ Asleep p'.out.view t m

/-- What is to hold: on a dead connection no call is asleep for good. -/
def Roused (p : Sleepers) : Prop :=
  p.out.conn.dead = true → ∀ t m, CallIn p.out.senders p.marks t m → Asleep p.out.view t m →
    p.Saved t m

/-- `closeconn`, if it is the one that finds the connection alive, finds no
call asleep that waits for its PDU to be written. -/
def ClosedAwake (p : Sleepers) (a : Outgoing.Act) : Prop :=
  a = .closeconn → p.out.conn.dead = false →
    ∀ t m k, CallIn p.out.senders p.marks t m → t.pc = .completing k → ¬ Asleep p.out.view t m

end Sleepers

/-! ## What a step does to what the calls wait for -/

namespace SendView

/-- `waiters_` when a call is in the first loop of `send`. -/
def joined (v : SendView) (t : Sender) : ℤ := if t.pc = .start then v.waiters + 1 else v.waiters

/-- `wpdu_` is given up, and the calls that wait for it are woken. -/
def released (v : SendView) : SendView :=
  { v with
    held := false
    broadcasts := if v.waiters > 0 then v.broadcasts + 1 else v.broadcasts }

end SendView

/-- What a section of `send` comes to, with the other calls `rest`. -/
inductive Ran (v : SendView) (t : Sender) (rest : List Sender) : SendView → List Sender → Prop
  /-- It waits for `wpdu_`. -/
  | waits (ht : t.Outside) (hlive : v.dead = false) (hheld : v.held = true) :
      Ran v t rest { v with waiters := v.joined t } (⟨t.pdu, .waiting⟩ :: rest)
  /-- It finds the connection dead. -/
  | refused (ht : t.Outside) (hdead : v.dead = true) :
      Ran v t rest { v with waiters := v.joined t - 1 } rest
  /-- It writes a part of its PDU, and waits for the others to be written. -/
  | partly (k : ℕ) (ht : t.Outside) (hlive : v.dead = false) (hfree : v.held = false) :
      Ran v t rest { v with waiters := v.joined t - 1, held := true }
        (⟨t.pdu, .completing k⟩ :: rest)
  /-- It fails to write. -/
  | fails (k : ℕ) (ht : t.Outside) (hlive : v.dead = false) (hfree : v.held = false) :
      Ran v t rest { v with waiters := v.joined t - 1, held := true, dead := true }
        (⟨t.pdu, .removing k⟩ :: rest)
  /-- It writes all of its PDU. -/
  | writes (ht : t.Outside) (hlive : v.dead = false) (hfree : v.held = false) :
      Ran v t rest { v with waiters := v.joined t - 1 }.released rest
  /-- It wakes up early, and waits again. -/
  | again (k : ℕ) (ht : t.pc = .completing k) (hlive : v.dead = false) : Ran v t rest v (t :: rest)
  /-- It returns. -/
  | ends (ht : ¬ t.Outside) : Ran v t rest v.released rest

/-- What a callback comes to. -/
inductive Called (v : SendView) : SendView → Prop
  | nothing : Called v v
  | signals : Called v { v with signals := v.signals + 1 }
  | kills : Called v { v with dead := true, signals := v.signals + 1 }

section

variable {s s' : Outgoing} {t : Sender} {rest : List Sender} {r : WriteResult}

/-- `writepdu` leaves all that to its callers. -/
theorem view_writepdu {w : Outgoing × Bool} (h : s.writepdu r = some w) :
    w.1.view = s.view ∧ w.1.senders = s.senders := by
  rw [Outgoing.writepdu, Option.ite_none_left_eq_some] at h
  replace h := h.2
  split at h
  · cases h
    exact ⟨rfl, rfl⟩
  · obtain ⟨b, hb, h⟩ := Option.bind_eq_some_iff.1 h
    have hheld : s.wpdu.buf.isSome = true := by rw [hb, Option.isSome_some]
    dsimp only at h
    split at h
    · cases h
      exact ⟨by rw [Outgoing.view, Outgoing.view, hheld, Option.isSome_some], rfl⟩
    · cases h
      exact ⟨by rw [Outgoing.view, Outgoing.view, hheld, Option.isSome_some], rfl⟩
    · rw [Option.ite_none_right_eq_some] at h
      cases h.2
      exact ⟨by rw [Outgoing.view, Outgoing.view, hheld, Option.isSome_some], rfl⟩

theorem view_finish (s : Outgoing) (p : Pdu) (k : ℕ) (rest : List Sender) :
    (s.finish p k rest).view = s.view.released := rfl

theorem ran_trySend (ht : t.Outside)
    (h : { s with waiters := s.view.joined t }.trySend t.pdu rest r = some s') :
    Ran s.view t rest s'.view s'.senders := by
  rw [Outgoing.trySend] at h
  split at h
  · rename_i hwait
    cases h
    exact .waits ht hwait.1 hwait.2
  · rename_i hgo
    dsimp only at h
    split at h
    · rename_i hdead
      cases h
      exact .refused ht hdead
    · rename_i hlive
      have hlive : s.conn.dead = false := by simpa using hlive
      have hfree : s.wpdu.buf.isSome = false := by
        rw [Bool.eq_false_iff]
        exact fun hheld => hgo ⟨hlive, hheld⟩
      obtain ⟨w, hw, rfl⟩ := Option.map_eq_some_iff.1 h
      obtain ⟨hview, hsenders⟩ := view_writepdu hw
      have hobt : w.1.view = { s.view with waiters := s.view.joined t - 1, held := true } := hview
      split
      · have hdie : ({ w.1.die with senders := ⟨t.pdu, .removing s.obtained.length⟩ :: rest } :
            Outgoing).view = { w.1.view with dead := true } := rfl
        rw [hdie, hobt]
        exact .fails s.obtained.length ht hlive hfree
      · split
        · rw [view_finish, hobt]
          exact .writes ht hlive hfree
        · rw [hobt, hsenders]
          exact .partly s.obtained.length ht hlive hfree

/-- **A section of `send`.** -/
theorem ran_runSender (h : s.runSender t rest r = some s') :
    Ran s.view t rest s'.view s'.senders := by
  obtain ⟨pdu, pc⟩ := t
  cases pc with
  | start => exact ran_trySend (.inl rfl) h
  | waiting => exact ran_trySend (.inr rfl) h
  | completing k =>
    rw [Outgoing.runSender] at h
    dsimp only at h
    split at h
    · rename_i hwait
      cases h
      exact .again k rfl hwait.1
    · cases h
      exact .ends (by simp [Sender.Outside])
  | removing k =>
    cases h
    exact .ends (by simp [Sender.Outside])

theorem called_writeCb (h : s.writeCb r = some s') :
    Called s.view s'.view ∧ s'.senders = s.senders := by
  rw [Outgoing.writeCb, Option.ite_none_left_eq_some] at h
  replace h := h.2
  split at h
  · cases h
    exact ⟨.nothing, rfl⟩
  · obtain ⟨w, hw, h⟩ := Option.bind_eq_some_iff.1 h
    obtain ⟨hview, hsenders⟩ := view_writepdu hw
    dsimp only at h
    split at h
    · cases h
      refine ⟨?_, hsenders⟩
      rw [← hview]
      exact .kills
    · rw [Option.ite_none_left_eq_some] at h
      replace h := h.2
      split at h
      · cases h
        refine ⟨?_, hsenders⟩
        rw [hview]
        exact .nothing
      · cases h
        refine ⟨?_, hsenders⟩
        rw [← hview]
        exact .signals

end

theorem called_readCb {s : Outgoing} {d : Connection} {mem : ℕ → UInt8} {io : ReadIn}
    {calls : List ReadCall} (h : s.conn.readCb mem io = some (d, calls)) :
    Called s.view { s with conn := d }.view := by
  rcases Connection.sameSignals_or_killed h with hsame | ⟨hdead, hsignals⟩
  · have hview : { s with conn := d }.view = s.view := by
      rw [Outgoing.view, Outgoing.view, hsame.dead, hsame.signals]
    rw [hview]
    exact .nothing
  · have hview : { s with conn := d }.view =
        { s.view with dead := true, signals := s.view.signals + 1 } := by
      rw [Outgoing.view, hdead, hsignals]
      rfl
    rw [hview]
    exact .kills

/-! ## Marks -/

section

variable {senders rest : List Sender} {marks : List ℕ} {t u : Sender} {m n k : ℕ} {v : SendView}

theorem callIn_cons_iff :
    CallIn (t :: senders) (n :: marks) u m ↔ (u = t ∧ m = n) ∨ CallIn senders marks u m := by
  constructor
  · rintro ⟨i, hu, hm⟩
    cases i with
    | zero => exact .inl ⟨(Option.some.inj hu).symm, (Option.some.inj hm).symm⟩
    | succ i => exact .inr ⟨i, hu, hm⟩
  · rintro (⟨rfl, rfl⟩ | ⟨i, hu, hm⟩)
    · exact ⟨0, rfl, rfl⟩
    · exact ⟨i + 1, hu, hm⟩

theorem CallIn.of_eraseIdx (h : CallIn (senders.eraseIdx k) (marks.eraseIdx k) u m) :
    CallIn senders marks u m := by
  obtain ⟨i, hu, hm⟩ := h
  rw [List.getElem?_eraseIdx] at hu hm
  split at hu
  · rename_i hik
    rw [if_pos hik] at hm
    exact ⟨i, hu, hm⟩
  · rename_i hik
    rw [if_neg hik] at hm
    exact ⟨i + 1, hu, hm⟩

theorem CallIn.mem (h : CallIn senders marks u m) : u ∈ senders := by
  obtain ⟨i, hu, -⟩ := h
  exact List.mem_of_getElem? hu

/-- Every call has its mark. -/
theorem exists_callIn (hlen : marks.length = senders.length) (hu : u ∈ senders) :
    ∃ (i : ℕ) (m : ℕ), senders[i]? = some u ∧ marks[i]? = some m := by
  obtain ⟨i, hi, rfl⟩ := List.getElem_of_mem hu
  exact ⟨i, marks[i], List.getElem?_eq_getElem hi, List.getElem?_eq_getElem (by omega)⟩

theorem marked_rest (hn : rest.length + 1 = n) : marked marks n v rest = marks := by
  cases rest with
  | nil => rfl
  | cons t rest =>
    rw [List.length_cons] at hn
    rw [marked, if_neg (by omega)]

theorem marked_cons (hn : rest.length + 1 = n) :
    marked marks n v (t :: rest) = v.signalled t.pc :: marks := by
  rw [marked, if_pos hn]

end

/-! ## The invariant -/

/-- Who sleeps, and who is there to wake them. -/
structure Tended (v : SendView) (senders : List Sender) (marks : List ℕ) : Prop where
  length : marks.length = senders.length
  waiters : v.waiters = senders.countP (fun t => t.pc = .waiting)
  /-- One call has `wpdu_`, while it is not free. -/
  held : senders.countP (fun t => ¬ t.Outside) = if v.held = true then 1 else 0
  past : ∀ t m, CallIn senders marks t m → m ≤ v.signalled t.pc
  /-- No call sleeps for `wpdu_` while it is free. -/
  free : v.held = false → ∀ t m, CallIn senders marks t m → t.pc = .waiting → m < v.broadcasts
  /-- On a dead connection no call sleeps for its PDU to be written. -/
  dead : v.dead = true → ∀ t m k, CallIn senders marks t m → t.pc = .completing k → m < v.signals

section

variable {v v' : SendView} {senders senders' rest : List Sender} {marks : List ℕ} {t : Sender}
variable {m k : ℕ}

/-- The calls without one of them. -/
structure Without (v : SendView) (t : Sender) (rest : List Sender) (marks : List ℕ) : Prop where
  length : marks.length = rest.length
  waiters : v.waiters = rest.countP (fun t => t.pc = .waiting) + if t.pc = .waiting then 1 else 0
  held : rest.countP (fun t => ¬ t.Outside) + (if t.Outside then 0 else 1) =
    if v.held = true then 1 else 0
  past : ∀ t m, CallIn rest marks t m → m ≤ v.signalled t.pc
  free : v.held = false → ∀ t m, CallIn rest marks t m → t.pc = .waiting → m < v.broadcasts
  dead : v.dead = true → ∀ t m k, CallIn rest marks t m → t.pc = .completing k → m < v.signals

theorem Tended.without (h : Tended v senders marks) (ht : senders[k]? = some t) :
    Without v t (senders.eraseIdx k) (marks.eraseIdx k) := by
  have hperm := perm_eraseIdx ht
  have hk : k < senders.length := (List.getElem?_eq_some_iff.1 ht).1
  have hlen := h.length
  refine ⟨?_, ?_, ?_, fun u m hu => h.past u m hu.of_eraseIdx,
    fun hv u m hu => h.free hv u m hu.of_eraseIdx,
    fun hv u m j hu => h.dead hv u m j hu.of_eraseIdx⟩
  · rw [List.length_eraseIdx_of_lt hk, List.length_eraseIdx_of_lt (by omega), hlen]
  · rw [h.waiters, hperm.countP_eq, List.countP_cons]
    by_cases hw : t.pc = .waiting
    · simp [hw]
    · simp [hw]
  · rw [← h.held, hperm.countP_eq, List.countP_cons]
    by_cases ho : t.Outside
    · simp [ho]
    · simp [ho]

/-- None of these calls waits for its PDU to be written. -/
theorem not_completing (hnone : rest.countP (fun t => ¬ t.Outside) = 0) {u : Sender}
    (hu : CallIn rest marks u m) : u.pc ≠ .completing k := by
  intro hk
  have := List.countP_eq_zero.1 hnone u hu.mem
  simp [Sender.Outside, hk] at this

theorem signalled_mono (pc : SendPc) (hb : v.broadcasts ≤ v'.broadcasts)
    (hs : v.signals ≤ v'.signals) : v.signalled pc ≤ v'.signalled pc := by
  cases pc with
  | start => exact Nat.le_refl 0
  | waiting => exact hb
  | completing => exact hs
  | removing => exact Nat.le_refl 0

/-- Where `wpdu_` is given up, all calls that wait for it wake. -/
theorem tended_released (hlen : marks.length = rest.length)
    (hwaiters : v.waiters = rest.countP (fun t => t.pc = .waiting))
    (hnone : rest.countP (fun t => ¬ t.Outside) = 0)
    (hpast : ∀ t m, CallIn rest marks t m → m ≤ v.signalled t.pc) :
    Tended v.released rest marks := by
  refine ⟨hlen, hwaiters, hnone, fun t m ht => ?_, fun _ t m ht hpc => ?_, fun _ t m k ht hpc => ?_⟩
  · refine Nat.le_trans (hpast t m ht) ?_
    refine signalled_mono t.pc ?_ ?_
    · rw [SendView.released]
      dsimp only
      split
      · omega
      · omega
    · exact Nat.le_refl v.signals
  · -- there is one that waits, so that they are woken
    have hpos : 0 < rest.countP (fun t => t.pc = .waiting) :=
      List.countP_pos_iff.2 ⟨t, ht.mem, decide_eq_true hpc⟩
    have hle := hpast t m ht
    rw [hpc] at hle
    rw [SendView.released]
    dsimp only
    rw [if_pos (by omega)]
    exact Nat.lt_succ_of_le hle
  · exact absurd hpc (not_completing hnone ht)

theorem Without.joined_eq (h : Without v t rest marks) (ht : t.Outside) :
    v.joined t = rest.countP (fun t => t.pc = .waiting) + 1 := by
  have hwaiters := h.waiters
  rw [SendView.joined]
  rcases ht with ht | ht
  · rw [if_neg (by rw [ht]; decide)] at hwaiters
    rw [if_pos ht]
    omega
  · rw [if_pos ht] at hwaiters
    rw [if_neg (by rw [ht]; decide)]
    exact hwaiters

theorem Without.held_eq (h : Without v t rest marks) (ht : t.Outside) :
    rest.countP (fun t => ¬ t.Outside) = if v.held = true then 1 else 0 := by
  have hheld := h.held
  rw [if_pos ht] at hheld
  exact hheld

/-- The call is back, with a new mark. -/
theorem Without.past_cons (h : Without v t rest marks) (u : Sender)
    (hb : v.broadcasts = v'.broadcasts) (hs : v.signals = v'.signals) :
    ∀ t m, CallIn (u :: rest) (v'.signalled u.pc :: marks) t m → m ≤ v'.signalled t.pc := by
  intro t m ht
  rcases callIn_cons_iff.1 ht with ⟨rfl, rfl⟩ | ht
  · exact Nat.le_refl _
  · exact Nat.le_trans (h.past t m ht)
      (signalled_mono t.pc (Nat.le_of_eq hb) (Nat.le_of_eq hs))

/-- It waits for `wpdu_`, which another call has. -/
theorem Without.wait (h : Without v t rest marks) (hout : t.Outside) (hlive : v.dead = false)
    (hheld : v.held = true) :
    Tended { v with waiters := v.joined t } (⟨t.pdu, .waiting⟩ :: rest)
      (SendView.signalled { v with waiters := v.joined t } .waiting :: marks) := by
  refine ⟨?_, ?_, ?_, h.past_cons _ rfl rfl, fun hfree => ?_, fun hdead => ?_⟩
  · rw [List.length_cons, List.length_cons, h.length]
  · rw [List.countP_cons_of_pos (by simp)]
    have := h.joined_eq hout
    dsimp only
    omega
  · rw [List.countP_cons_of_neg (by simp [Sender.Outside])]
    exact h.held_eq hout
  · exact absurd (hheld.symm.trans hfree) (by decide)
  · exact absurd (hlive.symm.trans hdead) (by decide)

/-- It finds the connection dead, and returns. -/
theorem Without.refuse (h : Without v t rest marks) (hout : t.Outside) :
    Tended { v with waiters := v.joined t - 1 } rest marks := by
  refine ⟨h.length, ?_, h.held_eq hout, h.past, h.free, h.dead⟩
  have := h.joined_eq hout
  dsimp only
  omega

/-- It has `wpdu_` now. Where the connection is dead it does not wait. -/
theorem Without.take (h : Without v t rest marks) (hout : t.Outside) (hfree : v.held = false)
    {u : Sender} (hu : ¬ u.Outside) {dead : Bool}
    (hdead : dead = true → ∀ k, u.pc ≠ .completing k) :
    Tended { v with waiters := v.joined t - 1, held := true, dead := dead } (u :: rest)
      (SendView.signalled { v with waiters := v.joined t - 1, held := true, dead := dead } u.pc ::
        marks) := by
  have hnone := h.held_eq hout
  rw [hfree, if_neg (by decide)] at hnone
  refine ⟨?_, ?_, ?_, h.past_cons _ rfl rfl, fun hf => ?_, fun hd x m j hx hpc => ?_⟩
  · rw [List.length_cons, List.length_cons, h.length]
  · have hpc : u.pc ≠ .waiting := fun hpc => hu (.inr hpc)
    rw [List.countP_cons_of_neg (by simp [hpc])]
    have := h.joined_eq hout
    dsimp only
    omega
  · rw [List.countP_cons_of_pos (by simpa using hu), hnone]
    rfl
  · cases hf
  · rcases callIn_cons_iff.1 hx with ⟨rfl, -⟩ | hx
    · exact absurd hpc (hdead hd j)
    · exact absurd hpc (not_completing hnone hx)

/-- It had `wpdu_` for a moment, and wrote all of its PDU. -/
theorem Without.write (h : Without v t rest marks) (hout : t.Outside) (hfree : v.held = false) :
    Tended (SendView.released { v with waiters := v.joined t - 1 }) rest marks := by
  have hnone := h.held_eq hout
  rw [hfree, if_neg (by decide)] at hnone
  refine tended_released h.length ?_ hnone h.past
  have := h.joined_eq hout
  dsimp only
  omega

/-- It was woken before its PDU was written, and waits again. -/
theorem Without.again (h : Without v t rest marks) {k : ℕ} (hpc : t.pc = .completing k)
    (hlive : v.dead = false) : Tended v (t :: rest) (v.signalled t.pc :: marks) := by
  have hwaiters := h.waiters
  have hheld := h.held
  have hout : ¬ t.Outside := by simp [Sender.Outside, hpc]
  rw [if_neg (by simp [hpc])] at hwaiters
  rw [if_neg hout] at hheld
  refine ⟨?_, ?_, ?_, h.past_cons _ rfl rfl, fun hfree => ?_, fun hdead => ?_⟩
  · rw [List.length_cons, List.length_cons, h.length]
  · rw [List.countP_cons_of_neg (by simp [hpc])]
    omega
  · rw [List.countP_cons_of_pos (by simpa using hout)]
    exact hheld
  · rw [hfree, if_neg (by decide)] at hheld
    omega
  · exact absurd (hlive.symm.trans hdead) (by decide)

/-- It gives `wpdu_` up, and returns. -/
theorem Without.release (h : Without v t rest marks) (hout : ¬ t.Outside) :
    Tended v.released rest marks := by
  have hwaiters := h.waiters
  have hheld := h.held
  rw [if_neg fun hpc => hout (.inr hpc)] at hwaiters
  rw [if_neg hout] at hheld
  refine tended_released h.length (by omega) ?_ h.past
  split at hheld
  · omega
  · omega

/-- **A section of `send`** leaves the sleepers tended. -/
theorem Tended.ran (h : Tended v senders marks) (ht : senders[k]? = some t)
    (hr : Ran v t (senders.eraseIdx k) v' senders') :
    Tended v' senders' (marked (marks.eraseIdx k) senders.length v' senders') := by
  have hw := h.without ht
  have hn : (senders.eraseIdx k).length + 1 = senders.length := by
    have hk : k < senders.length := (List.getElem?_eq_some_iff.1 ht).1
    rw [List.length_eraseIdx_of_lt hk]
    omega
  cases hr with
  | waits hout hlive hheld =>
    rw [marked_cons hn]
    exact hw.wait hout hlive hheld
  | refused hout hdead =>
    rw [marked_rest hn]
    exact hw.refuse hout
  | partly k hout hlive hfree =>
    rw [marked_cons hn]
    exact hw.take hout hfree (by simp [Sender.Outside])
      fun hdead => absurd (hlive.symm.trans hdead) (by decide)
  | fails k hout hlive hfree =>
    rw [marked_cons hn]
    exact hw.take hout hfree (by simp [Sender.Outside]) fun _ _ => SendPc.noConfusion
  | writes hout hlive hfree =>
    rw [marked_rest hn]
    exact hw.write hout hfree
  | again k hpc hlive =>
    rw [marked_cons hn]
    exact hw.again hpc hlive
  | ends hout =>
    rw [marked_rest hn]
    exact hw.release hout

/-- **A callback** leaves the sleepers tended: where it kills the
connection it signals. -/
theorem Tended.called (h : Tended v senders marks) (hc : Called v v') :
    Tended v' senders marks := by
  cases hc with
  | nothing => exact h
  | signals =>
    refine ⟨h.length, h.waiters, h.held, fun t m ht => ?_, h.free, fun hdead t m k ht hpc => ?_⟩
    · refine Nat.le_trans (h.past t m ht) ?_
      refine signalled_mono t.pc ?_ ?_
      · exact Nat.le_refl v.broadcasts
      · exact Nat.le_succ v.signals
    · exact Nat.lt_succ_of_lt (h.dead hdead t m k ht hpc)
  | kills =>
    refine ⟨h.length, h.waiters, h.held, fun t m ht => ?_, h.free, fun _ t m k ht hpc => ?_⟩
    · refine Nat.le_trans (h.past t m ht) ?_
      refine signalled_mono t.pc ?_ ?_
      · exact Nat.le_refl v.broadcasts
      · exact Nat.le_succ v.signals
    · have hle := h.past t m ht
      rw [hpc] at hle
      exact Nat.lt_succ_of_le hle

end

/-! ## Every run -/

theorem callIn_concat {senders : List Sender} {marks : List ℕ}
    (hlen : marks.length = senders.length) {t u : Sender} {m n : ℕ}
    (h : CallIn (senders ++ [t]) (marks ++ [n]) u m) :
    CallIn senders marks u m ∨ (u = t ∧ m = n) := by
  obtain ⟨i, hu, hm⟩ := h
  rcases Nat.lt_or_ge i senders.length with hi | hi
  · rw [List.getElem?_append_left hi] at hu
    rw [List.getElem?_append_left (by omega)] at hm
    exact .inl ⟨i, hu, hm⟩
  · rw [List.getElem?_append_right hi, List.getElem?_singleton] at hu
    rw [List.getElem?_append_right (by omega), List.getElem?_singleton] at hm
    split at hu
    · rename_i hi0
      rw [if_pos (by omega)] at hm
      exact .inr ⟨(Option.some.inj hu).symm, (Option.some.inj hm).symm⟩
    · cases hu

/-- A new call of `send` does not sleep yet. -/
theorem Tended.send {v : SendView} {senders : List Sender} {marks : List ℕ}
    (h : Tended v senders marks) (pdu : Pdu) :
    Tended v (senders ++ [⟨pdu, .start⟩]) (marks ++ [0]) := by
  refine ⟨?_, ?_, ?_, fun t m ht => ?_, fun hfree t m ht hpc => ?_, fun hdead t m k ht hpc => ?_⟩
  · rw [List.length_append, List.length_append, h.length, List.length_singleton,
      List.length_singleton]
  · rw [List.countP_append, h.waiters]
    simp
  · rw [List.countP_append, h.held]
    simp [Sender.Outside]
  · rcases callIn_concat h.length ht with ht | ⟨rfl, rfl⟩
    · exact h.past t m ht
    · exact Nat.zero_le _
  · rcases callIn_concat h.length ht with ht | ⟨rfl, rfl⟩
    · exact h.free hfree t m ht hpc
    · cases hpc
  · rcases callIn_concat h.length ht with ht | ⟨rfl, rfl⟩
    · exact h.dead hdead t m k ht hpc
    · cases hpc

namespace Sleepers

variable {p p' : Sleepers} {a : Outgoing.Act}

/-- The invariant of a run. -/
def Attended (p : Sleepers) : Prop := Tended p.out.view p.out.senders p.marks

theorem attended_new (errno : Errno) : (new errno).Attended := by
  refine ⟨rfl, rfl, rfl, fun t m ht => ?_, fun _ t m ht => ?_, fun _ t m k ht => ?_⟩
  all_goals
    obtain ⟨i, hi, -⟩ := ht
    cases hi

/-- `closeconn` leaves the sleepers tended, if it finds none of those that
it would have to wake. -/
theorem Attended.closeconn (h : p.Attended) (hclosed : p.ClosedAwake .closeconn) :
    Attended ⟨p.out.closeconn, p.marks⟩ := by
  rw [Attended, Outgoing.closeconn]
  split
  · exact h
  · rename_i hlive
    refine ⟨h.length, h.waiters, h.held, h.past, h.free, fun _ t m k ht hpc => ?_⟩
    have hle := h.past t m ht
    have hne : m ≠ p.out.view.signalled t.pc := fun heq =>
      hclosed rfl (by simpa using hlive) t m k ht hpc ⟨.inr ⟨k, hpc⟩, heq⟩
    rw [hpc] at hle hne
    exact Nat.lt_of_le_of_ne hle hne

theorem Attended.step (h : p.Attended) (hclosed : p.ClosedAwake a) (hs : p.step a = some p') :
    p'.Attended := by
  obtain ⟨s', hs', rfl⟩ := Option.map_eq_some_iff.1 hs
  cases a with
  | send pdu =>
    cases hs'
    exact Tended.send h pdu
  | run k r =>
    obtain ⟨t, ht, hs'⟩ := Option.bind_eq_some_iff.1 hs'
    exact Tended.ran h ht (ran_runSender hs')
  | writeCb r =>
    obtain ⟨hcalled, hsenders⟩ := called_writeCb hs'
    show Tended s'.view s'.senders p.marks
    rw [hsenders]
    exact Tended.called h hcalled
  | readCb mem io =>
    obtain ⟨d, hd, rfl⟩ := Option.map_eq_some_iff.1 hs'
    exact Tended.called h (called_readCb hd)
  | closeconn =>
    cases hs'
    exact h.closeconn hclosed

/-- A call that has `wpdu_` on a dead connection returns when it goes on,
and wakes those that wait for it. -/
theorem runSender_of_dead {s : Outgoing} {u : Sender} (rest : List Sender) (r : WriteResult)
    (hdead : s.conn.dead = true) (hu : ¬ u.Outside) :
    ∃ s', s.runSender u rest r = some s' ∧ s'.view = s.view.released := by
  obtain ⟨pdu, pc⟩ := u
  cases pc with
  | start => exact absurd (.inl rfl) hu
  | waiting => exact absurd (.inr rfl) hu
  | completing k =>
    refine ⟨s.finish pdu k rest, ?_, rfl⟩
    rw [Outgoing.runSender]
    exact if_neg fun hc => absurd (hdead.symm.trans hc.1) (by decide)
  | removing k => exact ⟨_, rfl, rfl⟩

/-- **A tended sleeper on a dead connection** waits for `wpdu_`, and the
call that has it is awake. -/
theorem Attended.roused (h : p.Attended) : p.Roused := by
  intro hdead t m ht hasleep
  obtain ⟨hpc | ⟨k, hpc⟩, hm⟩ := hasleep
  · rw [hpc] at hm
    have hheld : p.out.view.held = true := by
      by_contra hfree
      have := h.free (by simpa using hfree) t m ht hpc
      exact absurd hm (Nat.ne_of_lt this)
    have hone := h.held
    rw [if_pos hheld] at hone
    obtain ⟨u, hu, hout⟩ := List.countP_pos_iff.1 (show 0 < _ by rw [hone]; exact Nat.one_pos)
    have hout : ¬ u.Outside := by simpa using hout
    obtain ⟨j, n, hj, hn⟩ := exists_callIn h.length hu
    refine ⟨j, u, n, hj, hn, ?_, fun r => ?_⟩
    · rintro ⟨hw | ⟨k, hk⟩, hn'⟩
      · exact hout (.inr hw)
      · have := h.dead hdead u n k ⟨j, hj, hn⟩ hk
        rw [hk] at hn'
        exact absurd hn' (Nat.ne_of_lt this)
    · obtain ⟨s', hs', hview⟩ := runSender_of_dead (p.out.senders.eraseIdx j) r hdead hout
      have hstep : p.out.step (.run j r) = some s' := by
        rw [Outgoing.step, hj]
        exact hs'
      refine ⟨_, by rw [Sleepers.step, hstep, Option.map_some], ?_⟩
      -- as `t` waits, so does `waiters_` say
      have hpos : 0 < p.out.senders.countP (fun t => t.pc = .waiting) :=
        List.countP_pos_iff.2 ⟨t, ht.mem, decide_eq_true hpc⟩
      have hwaiters := h.waiters
      rintro ⟨-, hm'⟩
      dsimp only at hm'
      rw [hview, hpc, SendView.released, if_pos (by omega)] at hm'
      exact absurd (hm.symm.trans hm') (Nat.ne_of_lt (Nat.lt_succ_self _))
  · have := h.dead hdead t m k ht hpc
    rw [hpc] at hm
    exact absurd hm (Nat.ne_of_lt this)

/-- No section of `send` signals `send_complete_`. -/
theorem signals_of_ran {v v' : SendView} {t : Sender} {rest senders : List Sender}
    (h : Ran v t rest v' senders) : v'.signals = v.signals := by
  cases h with
  | waits => rfl
  | refused => rfl
  | partly => rfl
  | fails => rfl
  | writes => rfl
  | again => rfl
  | ends => rfl

/-- A call that `closeconn` finds asleep stays asleep. -/
theorem closedAwake_of_roused (h : ∀ p', p.step a = some p' → p'.Roused) : p.ClosedAwake a := by
  rintro rfl hlive t m k ht hpc ⟨hwaits, hm⟩
  rw [hpc] at hm
  have hclose : p.out.closeconn =
      { p.out with conn := { p.out.conn with dead := true, watched := false } } := by
    rw [Outgoing.closeconn, if_neg (by simp [hlive])]
  have hroused := h _ rfl
  rw [Roused, hclose] at hroused
  obtain ⟨j, u, n, hj, -, -, hrun⟩ := hroused rfl t m ht ⟨hwaits, by rw [hpc]; exact hm⟩
  obtain ⟨p'', hp'', hawake⟩ := hrun (.count 0)
  obtain ⟨s', hs', rfl⟩ := Option.map_eq_some_iff.1 hp''
  obtain ⟨u', -, hs'⟩ := Option.bind_eq_some_iff.1 hs'
  refine hawake ⟨hwaits, ?_⟩
  rw [hpc]
  exact hm.trans (signals_of_ran (ran_runSender hs')).symm

/-- **When no call of `send` is left asleep on a dead connection**, over
all runs of any number of calls with the callbacks and `closeconn`. -/
theorem roused_iff (errno : Errno) (as : List Outgoing.Act) :
    Along step Roused (new errno) as ↔ Steps step ClosedAwake (new errno) as :=
  along_iff_steps (fun _ h => h.roused) (fun _ _ _ h hclosed hs => h.step hclosed hs)
    (fun _ _ _ h => closedAwake_of_roused h) (attended_new errno)

/-- A PDU of 24 bytes. -/
def zeroPdu : Pdu := ⟨fun _ => 0, 24, by decide, by decide⟩

/-- Half of a PDU is written, and the connection is closed. -/
theorem not_roused_closeconn :
    ¬ Along step Roused (new .other) [.send zeroPdu, .run 0 (.count 12), .closeconn] := by
  intro h
  have hroused := (((h.2 _ rfl).2 _ rfl).2 _ rfl)
  obtain ⟨j, u, n, hj, hn, hawake, -⟩ := hroused rfl ⟨zeroPdu, .completing 0⟩ 0 ⟨0, rfl, rfl⟩
    ⟨.inr ⟨0, rfl⟩, rfl⟩
  -- the only call there is is the one asleep
  cases j with
  | zero =>
    cases hj
    cases hn
    exact hawake ⟨.inr ⟨0, rfl⟩, rfl⟩
  | succ j => cases hj

end Sleepers

end Yfs
