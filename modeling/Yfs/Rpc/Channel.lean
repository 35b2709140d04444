import Yfs.Common.Pick
import Yfs.Common.Run
import Yfs.Rpc.System

/-!
# The connections of a client

An `rpcc` has one connection at a time, `chan_`, and replaces it when it
finds it dead. Its calls have one each, `ch`, which they exchange for
`chan_` when they transmit again; where connecting fails they keep the one
that they had. Each of these is a reference, and the last one to be
dropped deletes the connection, if it is dead by then. `along_chanExact` says
that the counts are right in every run of any number of calls, and that no
connection is used after it is deleted or left over after `~rpcc`.
-/

namespace Yfs

open Common

namespace Rpc

/-! ## Connections -/

/-- The connections made so far; each is known by the number of those
before it. -/
structure ConnTable where
  made : ℕ
  /-- `refno_`. -/
  refno : ℕ → ℤ
  /-- `dead_`. -/
  dead : ℕ → Bool
  deleted : ℕ → Bool

namespace ConnTable

/-- The constructor of `connection`. -/
def connect (t : ConnTable) : ConnTable where
  made := t.made + 1
  refno := Function.update t.refno t.made 1
  dead := Function.update t.dead t.made false
  deleted := Function.update t.deleted t.made false

/-- `connection::incref`. -/
def incref (t : ConnTable) (c : ℕ) : ConnTable :=
  { t with refno := Function.update t.refno c (t.refno c + 1) }

/-- `connection::decref`. -/
def decref (t : ConnTable) (c : ℕ) : ConnTable :=
  { t with
    refno := Function.update t.refno c (t.refno c - 1)
    deleted :=
      if t.refno c - 1 = 0 ∧ t.dead c = true then Function.update t.deleted c true
      else t.deleted }

/-- The connection is found dead, or closed by `closeconn`. -/
def die (t : ConnTable) (c : ℕ) : ConnTable := { t with dead := Function.update t.dead c true }

end ConnTable

/-! ## The client -/

/-- What a call of `call1` has of its connection. -/
structure ChanCall where
  ch : Option ℕ
  transmit : Bool
deriving DecidableEq

/-- An `rpcc` and the calls on it. -/
structure ChanSys where
  table : ConnTable
  /-- `chan_`. -/
  chan : Option ℕ
  calls : List ChanCall
  /-- `~rpcc` has run. -/
  destroyed : Bool

namespace ChanSys

/-- The constructor of `rpcc`. -/
def init : ChanSys := ⟨⟨0, fun _ => 0, fun _ => false, fun _ => false⟩, none, [], false⟩

/-- What can happen. -/
inductive Act where
  /-- A call of `call1` begins. -/
  | call
  /-- The part of its loop under `if (transmit)`; `connect` says whether
  connecting succeeds, if it comes to that. -/
  | transmit (k : ℕ) (connect : Bool)
  /-- A wait ends without the call being done. -/
  | wake (k : ℕ)
  /-- The end of `call1`. -/
  | finish (k : ℕ)
  /-- A connection dies. -/
  | die (c : ℕ)
  /-- `~rpcc`. -/
  | destroy

/-- `get_refconn`, up to the test of `ch`: a `chan_` that is null or dead
is replaced. -/
def reconnect (s : ChanSys) (connect : Bool) : ChanSys :=
  if s.chan.all s.table.dead then
    let table := s.chan.elim s.table s.table.decref
    if connect then { s with table := table.connect, chan := some table.made }
    else { s with table := table, chan := none }
  else s

/-- The rest of `get_refconn`: the call exchanges its connection for
`chan_`, if there is one. The call is at the head. -/
def exchange (s : ChanSys) (ch : Option ℕ) (rest : List ChanCall) : ChanSys :=
  match s.chan with
  | none => { s with calls := ⟨ch, false⟩ :: rest }
  | some c =>
    let table := ch.elim s.table s.table.decref
    { s with table := table.incref c, calls := ⟨some c, false⟩ :: rest }

/-- One step. `rpcc` is destroyed when no call is left, and not used
after. -/
def step (retrans : Bool) (s : ChanSys) : Act → Option ChanSys
  | .call => if s.destroyed then none else some { s with calls := ⟨none, true⟩ :: s.calls }
  | .transmit k connect =>
    s.calls[k]?.bind fun ca =>
      if ca.transmit then some ((s.reconnect connect).exchange ca.ch (s.calls.eraseIdx k)) else none
  | .wake k =>
    s.calls[k]?.bind fun ca =>
      if ca.transmit then none
      else
        let transmit := retrans && ca.ch.all s.table.dead
        some { s with calls := ⟨ca.ch, transmit⟩ :: s.calls.eraseIdx k }
  | .finish k =>
    s.calls[k]?.bind fun ca =>
      if ca.transmit then none
      else some { s with
        table := ca.ch.elim s.table s.table.decref
        calls := s.calls.eraseIdx k }
  | .die c => if c < s.table.made then some { s with table := s.table.die c } else none
  | .destroy =>
    if s.destroyed = true ∨ s.calls ≠ [] then none
    else some { s with
      table := s.chan.elim s.table fun c => (s.table.die c).decref c
      chan := none
      destroyed := true }

/-- The references there are to a connection: `chan_` and the calls. -/
def refs (s : ChanSys) (c : ℕ) : ℕ :=
  (if s.chan = some c then 1 else 0) + s.calls.countP fun ca => ca.ch = some c

end ChanSys

/-- The counts are right; a connection that is deleted is dead and nothing
refers to it; and after `~rpcc` all are deleted. -/
structure ChanExact (s : ChanSys) : Prop where
  refno : ∀ c < s.table.made, s.table.refno c = s.refs c
  deleted : ∀ c < s.table.made, s.table.deleted c = true → s.table.dead c = true ∧ s.refs c = 0
  used : ∀ c, (s.chan = some c ∨ ∃ ca ∈ s.calls, ca.ch = some c) →
    c < s.table.made ∧ s.table.deleted c = false
  destroyed : s.destroyed = true → ∀ c < s.table.made, s.table.deleted c = true

theorem elim_decref_made (t : ConnTable) (ch : Option ℕ) : (ch.elim t t.decref).made = t.made := by
  rcases ch with _ | c
  · rfl
  · rfl

/-- `chan_` after `get_refconn` is the one of `Rpc.System`. -/
theorem getRefconn_eq_reconnect {ι Ω : Type} {s : ChanSys} {t : Sys ι Ω} {i : ι}
    (hchan : (t.clients i).chan = s.chan.map (Conn.mk i))
    (hmade : (t.clients i).nconn = s.table.made)
    (hdead : ∀ c, t.cltDead ⟨i, c⟩ = s.table.dead c) (connect : Bool) :
    t.getRefconn i connect =
      ((s.reconnect connect).chan.map (Conn.mk i), (s.reconnect connect).table.made) := by
  have hall : (t.clients i).chan.all t.cltDead = s.chan.all s.table.dead := by
    rw [hchan]
    rcases s.chan with _ | c
    · rfl
    · exact hdead c
  have helim := elim_decref_made s.table s.chan
  unfold Sys.getRefconn ChanSys.reconnect
  dsimp only
  rw [hall, hmade]
  split
  · split
    · exact Prod.ext (congrArg (fun n => some (Conn.mk i n)) helim.symm)
        (congrArg (· + 1) helim.symm)
    · exact Prod.ext rfl helim.symm
  · rw [hchan]

/-! ## References to the connections of a table -/

/-- The references to each connection are `own`: the counts are right, and
what nothing refers to is dead and deleted. -/
structure Owned (t : ConnTable) (own : ℕ → ℕ) : Prop where
  refno : ∀ c < t.made, t.refno c = own c
  dead : ∀ c < t.made, own c = 0 → t.dead c = true
  deleted : ∀ c < t.made, t.deleted c = true ↔ own c = 0

section

variable {t : ConnTable} {own own' : ℕ → ℕ} {c : ℕ}

theorem Owned.connect (h : Owned t own) (hself : own' t.made = 1)
    (hown : ∀ d, d ≠ t.made → own' d = own d) : Owned t.connect own' := by
  have hold : ∀ d < t.made + 1, d ≠ t.made → d < t.made := fun d hd hne => by omega
  refine ⟨fun d hd => ?_, fun d hd h0 => ?_, fun d hd => ?_⟩
  all_goals
    unfold ConnTable.connect
    dsimp only
    by_cases hne : d = t.made
  · rw [hne, Function.update_self, hself]
    rfl
  · rw [Function.update_of_ne hne, hown d hne]
    exact h.refno d (hold d hd hne)
  · rw [hne, hself] at h0
    omega
  · rw [hown d hne] at h0
    rw [Function.update_of_ne hne]
    exact h.dead d (hold d hd hne) h0
  · rw [hne, Function.update_self, hself]
    simp
  · rw [Function.update_of_ne hne, hown d hne]
    exact h.deleted d (hold d hd hne)

/-- Something more refers to a connection that something refers to. -/
theorem Owned.incref (h : Owned t own) (hpos : 0 < own c)
    (hown : ∀ d, own' d = own d + if c = d then 1 else 0) : Owned (t.incref c) own' := by
  have hzero : ∀ d, own' d = 0 ↔ own d = 0 := by
    intro d
    rw [hown d]
    by_cases hd : c = d
    · subst hd
      rw [if_pos rfl]
      omega
    · rw [if_neg hd, Nat.add_zero]
  refine ⟨fun d hd => ?_, fun d hd h0 => h.dead d hd ((hzero d).1 h0),
    fun d hd => (h.deleted d hd).trans (hzero d).symm⟩
  unfold ConnTable.incref
  dsimp only
  rw [hown d]
  by_cases hdc : c = d
  · subst hdc
    rw [Function.update_self, h.refno c hd, if_pos rfl]
    omega
  · rw [Function.update_of_ne (Ne.symm hdc), if_neg hdc, h.refno d hd, Nat.add_zero]

/-- Something less refers to a connection; if it was the last, the
connection is dead, and deleted. -/
theorem Owned.decref (h : Owned t own) (hown : ∀ d, own d = own' d + if c = d then 1 else 0)
    (hdead : own' c = 0 → t.dead c = true) : Owned (t.decref c) own' := by
  have hother : ∀ d, c ≠ d → own d = own' d := fun d hd => by rw [hown d, if_neg hd, Nat.add_zero]
  have hself : own c = own' c + 1 := by rw [hown c, if_pos rfl]
  refine ⟨fun d hd => ?_, fun d hd h0 => ?_, fun d hd => ?_⟩
  all_goals
    unfold ConnTable.decref
    dsimp only
    by_cases hdc : c = d
  · subst hdc
    rw [Function.update_self, h.refno c hd, hself]
    omega
  · rw [Function.update_of_ne (Ne.symm hdc), h.refno d hd, hother d hdc]
  · subst hdc
    exact hdead h0
  · exact h.dead d hd ((hother d hdc).trans h0)
  · subst hdc
    have hrefno : t.refno c - 1 = own' c := by
      rw [h.refno c hd, hself]
      omega
    rw [hrefno]
    by_cases h0 : own' c = 0
    · rw [if_pos ⟨by omega, hdead h0⟩, Function.update_self]
      exact ⟨fun _ => h0, fun _ => rfl⟩
    · rw [if_neg fun hz => h0 (by omega)]
      exact ⟨fun hdel => absurd ((h.deleted c hd).1 hdel) (by omega), fun hz => absurd hz h0⟩
  · have hsame : (if t.refno c - 1 = 0 ∧ t.dead c = true then Function.update t.deleted c true
        else t.deleted) d = t.deleted d := by
      split
      · rw [Function.update_of_ne (Ne.symm hdc)]
      · rfl
    rw [hsame, ← hother d hdc]
    exact h.deleted d hd

theorem Owned.die (h : Owned t own) : Owned (t.die c) own := by
  refine ⟨h.refno, fun d hd h0 => ?_, h.deleted⟩
  unfold ConnTable.die
  dsimp only
  by_cases hdc : d = c
  · rw [hdc, Function.update_self]
  · rw [Function.update_of_ne hdc]
    exact h.dead d hd h0

/-- Nothing more refers to a connection that may be null. -/
theorem Owned.drop (h : Owned t own) {ch : Option ℕ}
    (hown : ∀ d, own d = own' d + if ch = some d then 1 else 0)
    (hdead : ∀ c, ch = some c → own' c = 0 → t.dead c = true) :
    Owned (ch.elim t t.decref) own' := by
  rcases ch with _ | c
  · have hsame : own = own' := funext fun d => by rw [hown d, if_neg (by simp), Nat.add_zero]
    exact hsame ▸ h
  · refine h.decref (fun d => ?_) (hdead c rfl)
    rw [hown d]
    simp only [Option.some.injEq]

end

/-! ## The invariant -/

/-- The invariant: the references of a client are those to its
connections, a connection it has given up is dead, and after `~rpcc` there
is none. -/
structure Chan (s : ChanSys) : Prop where
  owned : Owned s.table s.refs
  dead : ∀ c < s.table.made, s.chan ≠ some c → s.table.dead c = true
  made : ∀ c, 0 < s.refs c → c < s.table.made
  destroyed : s.destroyed = true → s.calls = [] ∧ s.chan = none

section

variable {s s' : ChanSys} {ca : ChanCall} {rest : List ChanCall}

theorem chan_init : Chan .init where
  owned := ⟨fun c hc => absurd hc (Nat.not_lt_zero c), fun c hc => absurd hc (Nat.not_lt_zero c),
    fun c hc => absurd hc (Nat.not_lt_zero c)⟩
  dead c hc := absurd hc (Nat.not_lt_zero c)
  made _ hc := absurd hc (Nat.lt_irrefl 0)
  destroyed h := absurd h Bool.false_ne_true

/-- What is in use has been made and is not deleted. -/
theorem Chan.chanExact (h : Chan s) : ChanExact s where
  refno := h.owned.refno
  deleted c hc hdel :=
    have h0 := (h.owned.deleted c hc).1 hdel
    ⟨h.owned.dead c hc h0, h0⟩
  used c huse := by
    have hpos : 0 < s.refs c := by
      unfold ChanSys.refs
      obtain hchan | ⟨ca, hmem, hch⟩ := huse
      · rw [if_pos hchan]
        omega
      · have hcount : 0 < s.calls.countP fun ca => ca.ch = some c :=
          List.countP_pos_iff.2 ⟨ca, hmem, by simpa using hch⟩
        omega
    refine ⟨h.made c hpos, Bool.eq_false_of_not_eq_true fun hdel => ?_⟩
    exact absurd ((h.owned.deleted c (h.made c hpos)).1 hdel) (by omega)
  destroyed hdes c hc := by
    obtain ⟨hcalls, hchan⟩ := h.destroyed hdes
    refine (h.owned.deleted c hc).2 ?_
    unfold ChanSys.refs
    rw [hcalls, hchan]
    simp

/-- The references, with one call apart. -/
theorem refs_call (ht : s.calls.Perm (ca :: rest)) (c : ℕ) :
    s.refs c = ((if s.chan = some c then 1 else 0) + rest.countP fun ca => ca.ch = some c) +
      if ca.ch = some c then 1 else 0 := by
  unfold ChanSys.refs
  rw [ht.countP_eq, List.countP_cons]
  simp only [decide_eq_true_eq]
  omega

theorem elim_decref_dead (t : ConnTable) (ch : Option ℕ) : (ch.elim t t.decref).dead = t.dead := by
  rcases ch with _ | c
  · rfl
  · rfl

/-- The references to a `chan_` that is null are those of the calls. -/
theorem refs_of_none (hchan : s.chan = none) (c : ℕ) :
    s.refs c = s.calls.countP fun ca => ca.ch = some c := by
  unfold ChanSys.refs
  rw [hchan, if_neg (Option.some_ne_none c).symm, Nat.zero_add]

theorem Chan.die (h : Chan s) (c : ℕ) : Chan { s with table := s.table.die c } where
  owned := h.owned.die
  dead d hd hne := by
    unfold ConnTable.die
    dsimp only
    by_cases hdc : d = c
    · rw [hdc, Function.update_self]
    · rw [Function.update_of_ne hdc]
      exact h.dead d hd hne
  made := h.made
  destroyed := h.destroyed

/-- The client drops a `chan_` that is dead. -/
theorem Chan.giveUp (h : Chan s) (hdead : ∀ c, s.chan = some c → s.table.dead c = true) :
    Chan { s with table := s.chan.elim s.table s.table.decref, chan := none } := by
  have hrefs : ∀ c, s.refs c =
      ChanSys.refs ⟨s.chan.elim s.table s.table.decref, none, s.calls, s.destroyed⟩ c +
        if s.chan = some c then 1 else 0 := by
    intro c
    rw [refs_of_none (s := ⟨_, none, s.calls, s.destroyed⟩) rfl]
    unfold ChanSys.refs
    exact Nat.add_comm _ _
  refine ⟨h.owned.drop hrefs fun c hc _ => hdead c hc, fun c hc _ => ?_, fun c hc => ?_,
    fun hdes => ⟨(h.destroyed hdes).1, rfl⟩⟩
  · rw [elim_decref_dead]
    by_cases hchan : s.chan = some c
    · exact hdead c hchan
    · exact h.dead c (elim_decref_made s.table s.chan ▸ hc) hchan
  · rw [elim_decref_made]
    refine h.made c ?_
    rw [hrefs]
    exact Nat.lt_of_lt_of_le hc (Nat.le_add_right _ _)

/-- The client connects: no call has the new connection yet. -/
theorem Chan.connect (h : Chan s) (hchan : s.chan = none) (hlive : s.destroyed = false) :
    Chan { s with table := s.table.connect, chan := some s.table.made } := by
  have hrefs : ∀ c, ChanSys.refs ⟨s.table.connect, some s.table.made, s.calls, s.destroyed⟩ c =
      (if s.table.made = c then 1 else 0) + s.refs c := by
    intro c
    rw [refs_of_none hchan]
    unfold ChanSys.refs
    simp only [Option.some.injEq]
  -- a connection that was not made is not referred to
  have hnew : s.refs s.table.made = 0 := by
    by_contra hpos
    exact absurd (h.made s.table.made (by omega)) (Nat.lt_irrefl _)
  refine ⟨h.owned.connect ?_ fun d hd => ?_, fun c hc hne => ?_, fun c hc => ?_, fun hdes => ?_⟩
  · rw [hrefs, if_pos rfl, hnew]
  · rw [hrefs, if_neg (Ne.symm hd), Nat.zero_add]
  · have hne' : c ≠ s.table.made := fun heq => hne (congrArg some heq.symm)
    unfold ConnTable.connect at hc ⊢
    dsimp only at hc ⊢
    rw [Function.update_of_ne hne']
    exact h.dead c (by omega) (by rw [hchan]; exact (Option.some_ne_none c).symm)
  · show c < s.table.made + 1
    rw [hrefs] at hc
    split at hc
    · omega
    · have := h.made c (by omega)
      omega
  · rw [show s.destroyed = true from hdes] at hlive
    exact Bool.noConfusion hlive

/-- **The first half of `get_refconn`**: `chan_` is given up only when it
is dead. -/
theorem Chan.reconnect (h : Chan s) (hlive : s.destroyed = false) (connect : Bool) :
    Chan (s.reconnect connect) := by
  unfold ChanSys.reconnect
  split
  · rename_i hall
    have hgone := h.giveUp fun c hc => by
      rw [hc] at hall
      exact hall
    dsimp only
    split
    · exact hgone.connect rfl hlive
    · exact hgone
  · exact h

theorem calls_reconnect (connect : Bool) :
    (s.reconnect connect).calls = s.calls ∧ (s.reconnect connect).destroyed = s.destroyed := by
  unfold ChanSys.reconnect
  dsimp only
  split
  · split
    · exact ⟨rfl, rfl⟩
    · exact ⟨rfl, rfl⟩
  · exact ⟨rfl, rfl⟩

/-- A call drops its connection: that is dead, or it is `chan_`, which
stays. -/
theorem Chan.finish (h : Chan s) (ht : s.calls.Perm (ca :: rest)) :
    Chan { s with table := ca.ch.elim s.table s.table.decref, calls := rest } := by
  have hmade : ∀ c, ca.ch = some c → c < s.table.made := by
    intro c hc
    refine h.made c ?_
    rw [refs_call ht, if_pos hc]
    omega
  refine ⟨h.owned.drop (refs_call ht) fun c hc h0 => ?_, fun c hc hne => ?_, fun c hc => ?_,
    fun hdes => ?_⟩
  · -- nobody else has it, so it is not `chan_`, and was given up
    refine h.dead c (hmade c hc) fun hchan => ?_
    unfold ChanSys.refs at h0
    rw [if_pos hchan] at h0
    omega
  · rw [elim_decref_dead]
    exact h.dead c (elim_decref_made s.table ca.ch ▸ hc) hne
  · rw [elim_decref_made]
    refine h.made c ?_
    rw [refs_call ht]
    exact Nat.lt_of_lt_of_le hc (Nat.le_add_right _ _)
  · have hnil := (h.destroyed hdes).1
    rw [hnil] at ht
    exact absurd ht.symm (List.cons_ne_nil _ _ ∘ List.perm_nil.1)

/-- A call takes `chan_` for its connection. -/
theorem Chan.take (h : Chan s) (hlive : s.destroyed = false) {c : ℕ} (hchan : s.chan = some c)
    {ca' : ChanCall} (hca : ca'.ch = some c) :
    Chan { s with table := s.table.incref c, calls := ca' :: s.calls } := by
  have hpos : 0 < s.refs c := by
    unfold ChanSys.refs
    rw [if_pos hchan]
    omega
  have hrefs : ∀ d, ChanSys.refs ⟨s.table.incref c, s.chan, ca' :: s.calls, s.destroyed⟩ d =
      s.refs d + if c = d then 1 else 0 := by
    intro d
    rw [refs_call (List.Perm.refl _), hca]
    simp only [Option.some.injEq]
    rfl
  refine ⟨h.owned.incref hpos hrefs, h.dead, fun d hd => ?_, fun hdes => ?_⟩
  · rw [hrefs] at hd
    split at hd
    · rename_i hcd
      exact hcd ▸ h.made c hpos
    · exact h.made d hd
  · rw [show s.destroyed = true from hdes] at hlive
    exact Bool.noConfusion hlive

/-- A call goes on with the connection that it has. -/
theorem Chan.goOn (h : Chan s) (ht : s.calls.Perm (ca :: rest)) {ca' : ChanCall}
    (hca : ca'.ch = ca.ch) : Chan { s with calls := ca' :: rest } := by
  have hrefs : ChanSys.refs ⟨s.table, s.chan, ca' :: rest, s.destroyed⟩ = s.refs := by
    funext c
    rw [refs_call ht, refs_call (List.Perm.refl (ca' :: rest)), hca]
  refine ⟨hrefs ▸ h.owned, h.dead, fun c hc => h.made c (hrefs ▸ hc), fun hdes => ?_⟩
  have hnil := (h.destroyed hdes).1
  rw [hnil] at ht
  exact absurd ht.symm (List.cons_ne_nil _ _ ∘ List.perm_nil.1)

/-- **The second half of `get_refconn`.** -/
theorem Chan.exchange (h : Chan s) (hlive : s.destroyed = false)
    (ht : s.calls.Perm (ca :: rest)) : Chan (s.exchange ca.ch rest) := by
  unfold ChanSys.exchange
  split
  · exact h.goOn ht rfl
  · rename_i c hchan
    exact (h.finish ht).take hlive hchan rfl

/-- `~rpcc`: `chan_` is closed first, so it is dead when it is dropped. -/
theorem Chan.destroy (h : Chan s) (hcalls : s.calls = []) :
    Chan { s with
      table := s.chan.elim s.table fun c => (s.table.die c).decref c
      chan := none
      destroyed := true } := by
  obtain ⟨table, chan, calls, destroyed⟩ := s
  rcases chan with _ | c
  · exact ⟨h.owned, h.dead, h.made, fun _ => ⟨hcalls, rfl⟩⟩
  · have hgone := (h.die c).giveUp fun d hd => by
      obtain rfl := Option.some.inj hd
      exact Function.update_self ..
    exact ⟨hgone.owned, hgone.dead, hgone.made, fun _ => ⟨hcalls, rfl⟩⟩

/-- A client that has calls is not destroyed. -/
theorem Chan.live (h : Chan s) {k : ℕ} (hk : s.calls[k]? = some ca) : s.destroyed = false := by
  refine Bool.eq_false_of_not_eq_true fun hdes => ?_
  rw [(h.destroyed hdes).1] at hk
  exact absurd hk.symm (Option.some_ne_none ca)

/-- **One step** keeps the invariant. -/
theorem Chan.step {retrans : Bool} {a : ChanSys.Act} (h : Chan s)
    (hs : s.step retrans a = some s') : Chan s' := by
  rcases a with _ | ⟨k, connect⟩ | k | k | c | _
  · unfold ChanSys.step at hs
    dsimp only at hs
    split at hs
    · exact absurd hs.symm (Option.some_ne_none s')
    rename_i hlive
    obtain rfl := Option.some.inj hs
    -- the new call has no connection
    have hrefs : ChanSys.refs ⟨s.table, s.chan, ⟨none, true⟩ :: s.calls, s.destroyed⟩ = s.refs := by
      funext c
      rw [refs_call (List.Perm.refl _), if_neg (Option.some_ne_none c).symm]
      rfl
    exact ⟨hrefs ▸ h.owned, h.dead, fun c hc => h.made c (hrefs ▸ hc),
      fun hdes => absurd hdes hlive⟩
  · obtain ⟨ca, hk, hs⟩ := Option.bind_eq_some_iff.1 hs
    rw [Option.ite_none_right_eq_some] at hs
    obtain rfl := Option.some.inj hs.2
    have hlive := h.live hk
    -- `get_refconn`: a new `chan_` first, and then the connection of the call
    obtain ⟨hcalls, hdestroyed⟩ := calls_reconnect (s := s) connect
    refine (h.reconnect hlive connect).exchange (hdestroyed.trans hlive) ?_
    rw [hcalls]
    exact perm_eraseIdx hk
  · obtain ⟨ca, hk, hs⟩ := Option.bind_eq_some_iff.1 hs
    rw [Option.ite_none_left_eq_some] at hs
    obtain rfl := Option.some.inj hs.2
    exact h.goOn (perm_eraseIdx hk) rfl
  · obtain ⟨ca, hk, hs⟩ := Option.bind_eq_some_iff.1 hs
    rw [Option.ite_none_left_eq_some] at hs
    obtain rfl := Option.some.inj hs.2
    exact h.finish (perm_eraseIdx hk)
  · unfold ChanSys.step at hs
    rw [Option.ite_none_right_eq_some] at hs
    obtain rfl := Option.some.inj hs.2
    exact h.die c
  · unfold ChanSys.step at hs
    rw [Option.ite_none_left_eq_some] at hs
    obtain ⟨hguard, hs⟩ := hs
    obtain rfl := Option.some.inj hs
    have hcalls : s.calls = [] := by
      by_contra hne
      exact hguard (.inr hne)
    exact h.destroy hcalls

/-- **The counts of a client are right.** In every run of any number of
calls on an `rpcc`, with connections that die at any time and connecting
that fails or succeeds: `refno_` of each connection that was made is the
number of the references there are, one that is deleted is dead and has no
references, what is in use is not deleted, and after `~rpcc` every one is
deleted. -/
theorem along_chanExact (retrans : Bool) (acts : List ChanSys.Act) :
    Along (ChanSys.step retrans) ChanExact .init acts :=
  along_invariant (fun _ _ _ h hs => h.step hs) (fun _ h => h.chanExact) chan_init

/-- Two calls on one connection, which dies; one transmits again on a new
one, the other ends with the first. -/
example :
    ((exec (ChanSys.step true) .init
        [.call, .call, .transmit 0 true, .transmit 1 true, .die 0, .wake 0, .transmit 0 true,
          .finish 1, .finish 0, .destroy]).map fun s =>
      (s.table.made, s.table.deleted 0, s.table.deleted 1)) = some (2, true, true) := by
  decide

end

end Rpc

end Yfs
