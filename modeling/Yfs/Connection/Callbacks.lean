import Mathlib.Data.List.Nodup
import Yfs.Connection.Sleepers
import Yfs.Poll.Manager

/-!
# `write_cb` on a dead connection

`write_cb` asserts that the connection is not dead. The thread of the
poll manager calls it for a descriptor that was watched for writing when
the round began, and holds no lock until it is in `write_cb`. `closeconn`,
and `send` where it fails to write, set `dead_` and let go of the mutex
before they call `block_remove_fd`. `neverDead_of_unwatched` says that the
assertion cannot fail as long as they do so only while the descriptor is
not watched for writing: what is in the round is watched (`Guarded`),
up to the removal.
-/

namespace Yfs

open Common

/-- A section of `send` obtains `wpdu_`, and has it when it lets go of the
mutex: not all of the PDU was written. -/
def Outgoing.keepsWpdu (s s' : Outgoing) : Bool := s.wpdu.buf.isNone && s'.wpdu.buf.isSome

/-- The call of `send` is in `block_remove_fd`. -/
def Sender.isRemoving (t : Sender) : Bool :=
  match t.pc with
  | .removing _ => true
  | _ => false

/-- A connection and the poll manager. -/
structure Polled (κ : Type) where
  out : Outgoing
  mgr : PollMgr κ
  /-- The call of `block_remove_fd` after `dead_` was set is still to come. -/
  due : Bool

/-- What can happen. -/
inductive PolledAct (κ : Type) where
  | send (pdu : Pdu)
  /-- A call of `send` goes on. -/
  | run (k : ℕ) (r : WriteResult)
  /-- `closeconn`, up to `block_remove_fd`. -/
  | closeconn
  /-- `block_remove_fd`, in `closeconn` or in `send`. -/
  | remove
  /-- The wait in a `block_remove_fd` returns. -/
  | back (k : ℕ)
  /-- The thread of the poll manager goes on. -/
  | poll (rd wr : ℕ → Bool)
  /-- `read_cb` of this connection. -/
  | readCb (mem : ℕ → UInt8) (io : ReadIn)
  /-- `write_cb` of this connection. -/
  | writeCb (r : WriteResult)
  /-- Calls for other descriptors. -/
  | otherAdd (fd : ℕ) (flag : PollFlag) (ch : κ)
  | otherDel (fd : ℕ) (flag : PollFlag)
  | otherRemove (fd : ℕ)

namespace Polled

variable {κ : Type} [DecidableEq κ]

/-- The thread of the poll manager is in a callback of this connection. -/
def calling (fd : ℕ) (p : Polled κ) : Option CbKind :=
  match p.mgr.pc with
  | .call kind f _ => if f = fd then some kind else none
  | _ => none

/-- The callback returns. -/
def endCall (p : Polled κ) : Polled κ :=
  match p.mgr.pc with
  | .call _ _ due => { p with mgr := { p.mgr with pc := .serve due } }
  | _ => p

/-- The next section of a call of `send`. Where not all is written it calls
`add_callback`, under the mutex, unless it failed: then it lets go of the
mutex for `block_remove_fd`, and goes on when that has returned. -/
def run (fd : ℕ) (me : κ) (p : Polled κ) (k : ℕ) (r : WriteResult) : Option (Polled κ) :=
  p.out.senders[k]?.bind fun t =>
    if t.isRemoving = true ∧ (p.due = true ∨ ∃ q ∈ p.mgr.removers, q.fd = fd) then none
    else
      (p.out.runSender t (p.out.senders.eraseIdx k) r).bind fun out =>
        if p.out.keepsWpdu out then
          if out.conn.dead then some { p with out := out, due := true }
          else (p.mgr.addCallback fd .wronly me).map fun m => { p with out := out, mgr := m }
        else some { p with out := out }

/-- `read_cb`. Where it kills the connection it calls `del_callback`. -/
def readCb (fd : ℕ) (p : Polled κ) (mem : ℕ → UInt8) (io : ReadIn) : Option (Polled κ) :=
  (p.out.conn.readCb mem io).map fun r =>
    let m := if p.out.conn.dead = false ∧ r.1.dead = true then p.mgr.delCallback fd .rdwr else p.mgr
    { p with out := { p.out with conn := r.1 }, mgr := m }.endCall

/-- `write_cb`. Where there is nothing to write, or writing fails, it calls
`del_callback`. -/
def writeCb (fd : ℕ) (p : Polled κ) (r : WriteResult) : Option (Polled κ) :=
  (p.out.writeCb r).map fun out =>
    let m :=
      if p.out.wpdu.sz = 0 then p.mgr.delCallback fd .wronly
      else if out.conn.dead then p.mgr.delCallback fd .rdwr
      else p.mgr
    { p with out := out, mgr := m }.endCall

/-- One step, of a connection with the descriptor `fd`. -/
def step (fd : ℕ) (me : κ) (p : Polled κ) : PolledAct κ → Option (Polled κ)
  | .send pdu => (p.out.step (.send pdu)).map fun out => { p with out := out }
  | .run k r => p.run fd me k r
  | .closeconn =>
    if p.out.conn.dead then some p else some { p with out := p.out.closeconn, due := true }
  | .remove =>
    if p.due then some { p with mgr := p.mgr.blockRemoveFd fd, due := false } else none
  | .back k =>
    p.mgr.removers[k]?.map fun q =>
      { p with mgr := p.mgr.removed q.fd (p.mgr.removers.eraseIdx k) }
  | .poll rd wr =>
    if (p.calling fd).isSome then none else some { p with mgr := p.mgr.poll rd wr }
  | .readCb mem io => if p.calling fd = some .read then p.readCb fd mem io else none
  | .writeCb r => if p.calling fd = some .write then p.writeCb fd r else none
  | .otherAdd f flag ch =>
    if f = fd then none else (p.mgr.addCallback f flag ch).map fun m => { p with mgr := m }
  | .otherDel f flag => if f = fd then none else some { p with mgr := p.mgr.delCallback f flag }
  | .otherRemove f => if f = fd then none else some { p with mgr := p.mgr.blockRemoveFd f }

end Polled

variable {κ : Type}

/-- `closeconn`, if it finds the connection alive, and `send`, if it fails
to write, find the descriptor not watched for writing. -/
def DiesUnwatched (fd : ℕ) (p : Polled κ) : PolledAct κ → Prop
  | .closeconn => p.out.conn.dead = false → p.mgr.aio.isWatched fd .wronly = false
  | .run k r => ∀ t ∈ p.out.senders[k]?,
      ∀ out ∈ p.out.runSender t (p.out.senders.eraseIdx k) r,
        p.out.conn.dead = false → out.conn.dead = true → p.mgr.aio.isWatched fd .wronly = false
  | _ => True

instance (fd : ℕ) : (p : Polled κ) → (a : PolledAct κ) → Decidable (DiesUnwatched fd p a)
  | _, .closeconn => inferInstanceAs (Decidable (_ → _))
  | p, .run k _ => inferInstanceAs (Decidable (∀ t ∈ p.out.senders[k]?, _))
  | _, .send _ => inferInstanceAs (Decidable True)
  | _, .remove => inferInstanceAs (Decidable True)
  | _, .back _ => inferInstanceAs (Decidable True)
  | _, .poll _ _ => inferInstanceAs (Decidable True)
  | _, .readCb _ _ => inferInstanceAs (Decidable True)
  | _, .writeCb _ => inferInstanceAs (Decidable True)
  | _, .otherAdd _ _ _ => inferInstanceAs (Decidable True)
  | _, .otherDel _ _ => inferInstanceAs (Decidable True)
  | _, .otherRemove _ => inferInstanceAs (Decidable True)

/-! ## The invariant -/

/-- How often `write_cb` may still be called in this round. -/
def PollPc.writes (fd : ℕ) : PollPc → ℕ
  | .serve due => due.count (.write, fd)
  | .call kind f due => ((kind, f) :: due).count (.write, fd)
  | _ => 0

/-- What is known of the descriptor. -/
structure Guarded (fd : ℕ) (p : Polled κ) : Prop where
  /-- `write_cb` is in the round for no longer than it is watched for. -/
  live : p.out.conn.dead = false → p.mgr.pc.Due .write fd → p.mgr.aio.wfds fd = true
  once : p.mgr.pc.writes fd ≤ 1
  /-- On a dead connection nothing is watched for, and `write_cb` is not in
  the round, or will not be called. -/
  dead : p.out.conn.dead = true → p.mgr.aio.wfds fd = false ∧ ¬ p.mgr.pc.Calls .write fd ∧
    (p.mgr.callbacks fd = none ∨ ¬ p.mgr.pc.Due .write fd)
  due : p.due = true → p.out.conn.dead = true

section

variable {p p' : Polled κ} {fd : ℕ}

theorem calling_eq_some_iff {kind : CbKind} :
    p.calling fd = some kind ↔ p.mgr.pc.Calls kind fd := by
  unfold Polled.calling PollPc.Calls
  constructor
  · intro h
    split at h
    · rename_i k f due hpc
      rw [Option.ite_none_right_eq_some, Option.some.injEq] at h
      obtain ⟨rfl, rfl⟩ := h
      exact ⟨due, hpc⟩
    · exact absurd h (by simp)
  · rintro ⟨due, hpc⟩
    rw [hpc]
    dsimp only
    rw [if_pos rfl]

/-- A step that leaves the round alone, and what is watched. -/
theorem Guarded.of_same (h : Guarded fd p) (hdead : p'.out.conn.dead = p.out.conn.dead)
    (hpc : p'.mgr.pc = p.mgr.pc) (hw : p'.mgr.aio.wfds fd = p.mgr.aio.wfds fd)
    (hcb : p.mgr.callbacks fd = none → p'.mgr.callbacks fd = none)
    (hdue : p'.due = true → p.due = true) : Guarded fd p' where
  live := by
    rw [hdead, hpc, hw]
    exact h.live
  once := by
    rw [hpc]
    exact h.once
  dead hd := by
    rw [hdead] at hd
    obtain ⟨hoff, hcalls, hround⟩ := h.dead hd
    rw [hpc, hw]
    exact ⟨hoff, hcalls, hround.imp_left hcb⟩
  due hd := by
    rw [hdead]
    exact h.due (hdue hd)

/-- **The connection dies** while it is not watched for writing. -/
theorem Guarded.dies (h : Guarded fd p) (halive : p.out.conn.dead = false)
    (hw : p.mgr.aio.wfds fd = false) {out : Outgoing} (hdead : out.conn.dead = true) :
    Guarded fd { p with out := out, due := true } := by
  have hnot : ¬ p.mgr.pc.Due .write fd := by
    intro hdue
    rw [h.live halive hdue] at hw
    exact absurd hw (by decide)
  refine ⟨fun hlive => ?_, h.once, fun _ => ⟨hw, fun hcalls => hnot hcalls.due, .inr hnot⟩,
    fun _ => hdead⟩
  change out.conn.dead = false at hlive
  rw [hdead] at hlive
  exact absurd hlive (by decide)

/-! ## The thread of the poll manager -/

/-- The round has `write_cb` of a descriptor once at most. -/
theorem writes_poll {m : PollMgr κ} {rd wr : ℕ → Bool} (h : m.pc.writes fd ≤ 1) :
    (m.poll rd wr).pc.writes fd ≤ 1 := by
  unfold PollMgr.poll
  split
  · exact Nat.zero_le 1
  · exact Nat.zero_le 1
  · rename_i trfds twfds high hpc
    have hread : ∀ l : List ℕ, (l.map (CbKind.read, ·)).count (.write, fd) = 0 := by
      intro l
      rw [List.count_eq_zero]
      intro hmem
      obtain ⟨f, -, heq⟩ := List.mem_map.1 hmem
      exact absurd (congrArg Prod.fst heq) CbKind.noConfusion
    have hwrite : ∀ l : List ℕ, l.Nodup → (l.map (CbKind.write, ·)).count (.write, fd) ≤ 1 := by
      intro l hl
      have hinj : Function.Injective fun f : ℕ => (CbKind.write, f) :=
        fun f g hfg => congrArg Prod.snd hfg
      exact List.nodup_iff_count_le_one.1 (hl.map hinj) _
    change List.count _ (_ ++ _) ≤ 1
    rw [List.count_append, hread, Nat.zero_add]
    exact hwrite _ (m.aio.nodup_ready _ _ _)
  · exact Nat.zero_le 1
  · rename_i kind f due hpc
    rw [hpc] at h
    dsimp only
    split
    · exact h
    · exact Nat.le_trans (List.count_le_count_cons) h
  · rename_i kind f due hpc
    rw [hpc] at h
    exact Nat.le_trans (List.count_le_count_cons) h

theorem Guarded.poll (h : Guarded fd p) (rd wr : ℕ → Bool) :
    Guarded fd { p with mgr := p.mgr.poll rd wr } := by
  obtain ⟨haio, hcallbacks⟩ := p.mgr.poll_keeps rd wr
  refine ⟨fun hlive hdue => ?_, writes_poll h.once, fun hdead => ?_, h.due⟩
  · change (p.mgr.poll rd wr).aio.wfds fd = true
    rw [haio]
    rcases PollMgr.due_of_poll hdue with hold | ⟨-, hwatched⟩
    · exact h.live hlive hold
    · exact hwatched
  · obtain ⟨hoff, -, hround⟩ := h.dead hdead
    have hround' : p.mgr.callbacks fd = none ∨ ¬ (p.mgr.poll rd wr).pc.Due .write fd := by
      refine hround.imp_right fun hnot hdue => ?_
      rcases PollMgr.due_of_poll hdue with hold | ⟨-, hwatched⟩
      · exact hnot hold
      · rw [show p.mgr.aio.watches .write fd = false from hoff] at hwatched
        exact absurd hwatched (by decide)
    dsimp only
    rw [haio, hcallbacks]
    refine ⟨hoff, fun hcalls => ?_, hround'⟩
    rcases hround' with hnone | hnot
    · have hsome := PollMgr.callbacks_of_calls hcalls
      rw [hnone] at hsome
      exact absurd hsome Bool.false_ne_true
    · exact hnot hcalls.due

/-! ## Callbacks -/

/-- What is left of the round when a callback returns. -/
theorem endCall_eq {kind : CbKind} {due : List (CbKind × ℕ)} (hpc : p.mgr.pc = .call kind fd due) :
    p.endCall = { p with mgr := { p.mgr with pc := .serve due } } := by
  unfold Polled.endCall
  rw [hpc]

/-- `del_callback` of both leaves nothing of the descriptor. -/
theorem delCallback_rdwr (m : PollMgr κ) (fd : ℕ) :
    (m.delCallback fd .rdwr).aio.wfds fd = false ∧
      (m.delCallback fd .rdwr).callbacks fd = none := by
  have hgone : (m.aio.unwatchFd fd .rdwr).2 = true := by
    rw [SelectAio.unwatchFd_snd]
    simp [PollFlag.rd, PollFlag.wr]
  unfold PollMgr.delCallback
  dsimp only
  rw [hgone, if_pos rfl, Function.update_self, SelectAio.wfds_unwatchFd, Function.update_self]
  exact ⟨Bool.and_false _, rfl⟩

/-- **A callback kills the connection**, and removes all that there is of
the descriptor. -/
theorem Guarded.killed {kind : CbKind} {due : List (CbKind × ℕ)} (h : Guarded fd p)
    (hpc : p.mgr.pc = .call kind fd due) {out : Outgoing} (hdead : out.conn.dead = true) :
    Guarded fd ({ p with out := out, mgr := p.mgr.delCallback fd .rdwr } : Polled κ).endCall := by
  obtain ⟨hoff, hnone⟩ := delCallback_rdwr p.mgr fd
  have honce := h.once
  rw [hpc] at honce
  rw [endCall_eq (p := { p with out := out, mgr := p.mgr.delCallback fd .rdwr }) hpc]
  refine ⟨fun hlive => ?_, Nat.le_trans List.count_le_count_cons honce, fun _ => ?_, fun _ => hdead⟩
  · change out.conn.dead = false at hlive
    rw [hdead] at hlive
    exact absurd hlive (by decide)
  · exact ⟨hoff, fun ⟨_, hcall⟩ => PollPc.noConfusion hcall, .inl hnone⟩

/-- A callback returns, and leaves the connection as it is. -/
theorem Guarded.endCall {kind : CbKind} {due : List (CbKind × ℕ)} (h : Guarded fd p)
    (hpc : p.mgr.pc = .call kind fd due) : Guarded fd p.endCall := by
  have honce := h.once
  rw [hpc] at honce
  have hdue : ∀ {k : CbKind}, (PollPc.serve due).Due k fd → p.mgr.pc.Due k fd := by
    intro k hk
    rw [hpc]
    exact .inr hk
  rw [endCall_eq hpc]
  refine ⟨fun hlive hd => h.live hlive (hdue hd), Nat.le_trans List.count_le_count_cons honce,
    fun hdead => ?_, h.due⟩
  obtain ⟨hoff, -, hround⟩ := h.dead hdead
  exact ⟨hoff, fun ⟨_, hcall⟩ => PollPc.noConfusion hcall,
    hround.imp_right fun hnot hd => hnot (hdue hd)⟩

theorem Guarded.readCb (h : Guarded fd p) (hcall : p.calling fd = some .read) {mem : ℕ → UInt8}
    {io : ReadIn} (hs : p.readCb fd mem io = some p') : Guarded fd p' := by
  obtain ⟨due, hpc⟩ := calling_eq_some_iff.1 hcall
  obtain ⟨r, hr, rfl⟩ := Option.map_eq_some_iff.1 hs
  dsimp only
  split
  · rename_i hkill
    exact h.killed hpc hkill.2
  · rename_i hkeep
    have hdead : r.1.dead = p.out.conn.dead := by
      rcases Connection.sameSignals_or_killed hr with hsame | ⟨hdead, -⟩
      · exact hsame.dead
      · rw [hdead]
        by_contra hne
        exact hkeep ⟨Bool.eq_false_iff.2 (Ne.symm hne), hdead⟩
    exact Guarded.endCall (h.of_same hdead rfl rfl id id) hpc

/-- **`write_cb`** finds the connection alive. Where it has nothing to
write, the descriptor is not watched for writing any more, and is not in
what is left of the round. -/
theorem Guarded.writeCb (h : Guarded fd p) (hcall : p.calling fd = some .write) {r : WriteResult}
    (hs : p.writeCb fd r = some p') : Guarded fd p' := by
  obtain ⟨due, hpc⟩ := calling_eq_some_iff.1 hcall
  obtain ⟨out, hout, rfl⟩ := Option.map_eq_some_iff.1 hs
  have halive : p.out.conn.dead = false := by
    rw [← Bool.not_eq_true]
    intro hdead
    exact (h.dead hdead).2.1 ⟨due, hpc⟩
  dsimp only
  split
  · rename_i hsz
    rw [Outgoing.writeCb, if_neg (by rw [halive]; decide), if_pos hsz] at hout
    obtain rfl := Option.some.inj hout
    have honce := h.once
    rw [hpc] at honce
    -- a round has the descriptor once for writing, and this is the call for it
    have hnot : (CbKind.write, fd) ∉ due := by
      intro hmem
      have hpos := List.count_pos_iff.2 hmem
      change List.count _ (_ :: due) ≤ 1 at honce
      rw [List.count_cons_self] at honce
      omega
    rw [endCall_eq (p := { p with mgr := p.mgr.delCallback fd .wronly }) hpc]
    refine ⟨fun _ hdue => absurd hdue hnot, Nat.le_trans List.count_le_count_cons honce,
      fun hdead => ?_, h.due⟩
    change p.out.conn.dead = true at hdead
    rw [halive] at hdead
    exact absurd hdead (by decide)
  · split
    · rename_i hdead
      exact h.killed hpc hdead
    · rename_i hlive
      have hsame : out.conn.dead = p.out.conn.dead := by
        rw [halive, Bool.eq_false_iff]
        exact hlive
      exact Guarded.endCall (h.of_same hsame rfl rfl id id) hpc

end

/-! ## Steps -/

section

variable [DecidableEq κ] {p p' : Polled κ} {fd : ℕ} {me : κ}

theorem addCallback_eq_some {m m' : PollMgr κ} {f : ℕ} {flag : PollFlag} {ch : κ}
    (h : m.addCallback f flag ch = some m') :
    m' = { m with
      aio := m.aio.watchFd f flag
      callbacks := Function.update m.callbacks f (some ch) } := by
  unfold PollMgr.addCallback at h
  rw [Option.ite_none_left_eq_some, Option.ite_none_left_eq_some] at h
  exact (Option.some.inj h.2.2).symm

/-- What a section of `send` does, as far as it matters here. -/
theorem Ran.held_cases {v v' : SendView} {t : Sender} {rest senders : List Sender}
    (h : Ran v t rest v' senders) :
    ((!v.held && v'.held) = true ∧ v.dead = false) ∨
      ((!v.held && v'.held) = false ∧ v'.dead = v.dead) := by
  cases h with
  | waits _ _ hheld =>
    right
    simp [hheld]
  | refused => simp
  | partly k _ hlive hfree => exact .inl ⟨by simp [hfree], hlive⟩
  | fails k _ hlive hfree => exact .inl ⟨by simp [hfree], hlive⟩
  | writes => simp [SendView.released]
  | again => simp
  | ends => simp [SendView.released]

theorem keepsWpdu_cases {s s' : Outgoing} {t : Sender} {rest : List Sender} {r : WriteResult}
    (h : s.runSender t rest r = some s') :
    (s.keepsWpdu s' = true ∧ s.conn.dead = false) ∨
      (s.keepsWpdu s' = false ∧ s'.conn.dead = s.conn.dead) := by
  have hkeeps : s.keepsWpdu s' = (!s.view.held && s'.view.held) := by
    unfold Outgoing.keepsWpdu Outgoing.view
    rw [Option.not_isSome]
  rw [hkeeps]
  exact (ran_runSender h).held_cases

theorem Guarded.run (h : Guarded fd p) {k : ℕ} {r : WriteResult}
    (hdies : DiesUnwatched fd p (.run k r)) (hs : p.run fd me k r = some p') : Guarded fd p' := by
  obtain ⟨t, ht, hs⟩ := Option.bind_eq_some_iff.1 hs
  rw [Option.ite_none_left_eq_some] at hs
  obtain ⟨out, hout, hs⟩ := Option.bind_eq_some_iff.1 hs.2
  rcases keepsWpdu_cases hout with ⟨hkeeps, halive⟩ | ⟨hkeeps, hdead⟩
  · rw [if_pos hkeeps] at hs
    split at hs
    · -- the write failed
      rename_i hdead
      obtain rfl := Option.some.inj hs
      exact h.dies halive (hdies t ht out hout halive hdead) hdead
    · -- the rest is left to `write_cb`
      rename_i hlive
      obtain ⟨m, hm, rfl⟩ := Option.map_eq_some_iff.1 hs
      obtain rfl := addCallback_eq_some hm
      have hwatched : (p.mgr.aio.watchFd fd .wronly).wfds fd = true := by
        rw [SelectAio.wfds_watchFd, Function.update_self]
        exact Bool.or_true _
      -- nothing was added to the round that is going on
      refine ⟨fun _ _ => hwatched, h.once, fun hdead => absurd hdead hlive, fun hdue => ?_⟩
      have hdead := h.due hdue
      rw [halive] at hdead
      exact absurd hdead (by decide)
  · rw [if_neg (by rw [hkeeps]; decide)] at hs
    obtain rfl := Option.some.inj hs
    exact h.of_same hdead rfl rfl id id

/-- Calls for other descriptors leave this one alone. -/
theorem wfds_of_ne {a : SelectAio} {f : ℕ} {flag : PollFlag} (hf : f ≠ fd) :
    (a.watchFd f flag).wfds fd = a.wfds fd ∧ (a.unwatchFd f flag).1.wfds fd = a.wfds fd := by
  rw [SelectAio.wfds_watchFd, SelectAio.wfds_unwatchFd, Function.update_of_ne hf.symm,
    Function.update_of_ne hf.symm]
  exact ⟨rfl, rfl⟩

theorem Guarded.step (h : Guarded fd p) {a : PolledAct κ} (hdies : DiesUnwatched fd p a)
    (hs : p.step fd me a = some p') : Guarded fd p' := by
  cases a with
  | send pdu =>
    obtain rfl := Option.some.inj hs
    exact h.of_same rfl rfl rfl id id
  | run k r => exact h.run hdies hs
  | closeconn =>
    unfold Polled.step at hs
    dsimp only at hs
    split at hs
    · obtain rfl := Option.some.inj hs
      exact h
    · rename_i hlive
      rw [Bool.not_eq_true] at hlive
      obtain rfl := Option.some.inj hs
      refine h.dies hlive (hdies hlive) ?_
      unfold Outgoing.closeconn
      rw [if_neg (by rw [hlive]; decide)]
  | remove =>
    unfold Polled.step at hs
    rw [Option.ite_none_right_eq_some] at hs
    obtain ⟨hdue, hs⟩ := hs
    obtain rfl := Option.some.inj hs
    -- only a dead connection is removed, and that is not watched for writing
    have hoff := (h.dead (h.due hdue)).1
    refine h.of_same rfl rfl ?_ id fun hd => absurd hd Bool.false_ne_true
    change (p.mgr.aio.unwatchFd fd .rdwr).1.wfds fd = _
    rw [SelectAio.wfds_unwatchFd, Function.update_self, hoff, Bool.false_and]
  | back k =>
    obtain ⟨q, -, rfl⟩ := Option.map_eq_some_iff.1 hs
    refine h.of_same rfl rfl rfl (fun hnone => ?_) id
    change Function.update p.mgr.callbacks q.fd none fd = none
    by_cases hfd : fd = q.fd
    · rw [hfd, Function.update_self]
    · rw [Function.update_of_ne hfd, hnone]
  | poll rd wr =>
    unfold Polled.step at hs
    rw [Option.ite_none_left_eq_some] at hs
    obtain rfl := Option.some.inj hs.2
    exact h.poll rd wr
  | readCb mem io =>
    unfold Polled.step at hs
    rw [Option.ite_none_right_eq_some] at hs
    exact h.readCb hs.1 hs.2
  | writeCb r =>
    unfold Polled.step at hs
    rw [Option.ite_none_right_eq_some] at hs
    exact h.writeCb hs.1 hs.2
  | otherAdd f flag ch =>
    unfold Polled.step at hs
    rw [Option.ite_none_left_eq_some] at hs
    obtain ⟨hf, hs⟩ := hs
    obtain ⟨m, hm, rfl⟩ := Option.map_eq_some_iff.1 hs
    obtain rfl := addCallback_eq_some hm
    refine h.of_same rfl rfl (wfds_of_ne hf).1 (fun hnone => ?_) id
    exact (Function.update_of_ne (Ne.symm hf) _ _).trans hnone
  | otherDel f flag =>
    unfold Polled.step at hs
    rw [Option.ite_none_left_eq_some] at hs
    obtain ⟨hf, hs⟩ := hs
    obtain rfl := Option.some.inj hs
    refine h.of_same rfl rfl (wfds_of_ne hf).2 (fun hnone => ?_) id
    unfold PollMgr.delCallback
    dsimp only
    split
    · rw [Function.update_of_ne (Ne.symm hf), hnone]
    · exact hnone
  | otherRemove f =>
    unfold Polled.step at hs
    rw [Option.ite_none_left_eq_some] at hs
    obtain ⟨hf, hs⟩ := hs
    obtain rfl := Option.some.inj hs
    exact h.of_same rfl rfl (wfds_of_ne hf).2 id id

end

/-! ## Runs -/

/-- A connection just constructed. -/
def Polled.new (errno : Errno) (m : PollMgr κ) : Polled κ := ⟨.new errno, m, false⟩

end Yfs
