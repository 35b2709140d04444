import Yfs.Rpc.References

/-!
# The connection of a reply

A dispatch whose connection has died while the handler ran takes the
latest one of the client instead, `conns_[clt_nonce]`. The entry was made
earlier, on the branch for the clients that have a nonce; for the nonce 0
there is none, the lookup inserts a null pointer, and the dispatch goes on
with it. `validReplies_iff` says that every reply goes to a connection on
which a request of the client was received exactly as long as that does
not happen.
-/

namespace Yfs

open Common

namespace Rpc

variable {ι Ω : Type}

/-! ## State -/

/-- The server of `Rpc.References`, with what its connections received. -/
structure ReplySys (ι Ω : Type) where
  server : RefSys ι Ω
  /-- The connections there were; an address may be used again, a
  connection is not. -/
  opened : List (Conn ι)
  /-- What `got_pdu` was called with. -/
  received : List (Conn ι × List UInt8)
  /-- The nonces for which `conns_` has a null pointer, which a dispatch
  put there and has taken for its own connection. It calls `incref` on
  it, and with that the process ends. -/
  nulls : List UInt32

/-- The `clt_nonce` of a request. -/
def cltNonceOf (cfg : Config ι Ω) (pdu : List UInt8) : UInt32 := (Sys.parse cfg pdu).2.cltNonce

/-- A request with this nonce has been received on the connection. -/
def Heard (cfg : Config ι Ω) (received : List (Conn ι × List UInt8)) (n : UInt32) (c : Conn ι) :
    Prop :=
  ∃ pdu, (c, pdu) ∈ received ∧ (Sys.parse cfg pdu).1.ok = true ∧ cltNonceOf cfg pdu = n

/-- A dispatch that has come to the choice of its connection. -/
def Job.chooses (j : Job ι) : Bool :=
  match j.phase with
  | .choose _ => true
  | _ => false

namespace ReplySys

/-- No connection has been accepted. -/
def init : ReplySys ι Ω := ⟨.init, [], [], []⟩

variable [DecidableEq ι]

/-- The next step of a job. Where the connection is dead and `conns_` has
none, `conns_[h.clt_nonce]` is a new null pointer. -/
def dispatch (cfg : Config ι Ω) (s : ReplySys ι Ω) (k : ℕ) (w : Ω) : Option (ReplySys ι Ω) :=
  s.server.sys.jobs[k]?.bind fun j =>
    let n := cltNonceOf cfg j.pdu
    if j.chooses = true ∧ s.server.sys.srvDead j.conn = true ∧ s.server.sys.conns n = none then
      some { s with nulls := n :: s.nulls }
    else (s.server.dispatch cfg k w).map fun t => { s with server := t }

/-- One step. -/
def step (cfg : Config ι Ω) (s : ReplySys ι Ω) (a : RefSys.Act ι Ω) : Option (ReplySys ι Ω) :=
  if s.nulls.isEmpty = false then none
  else
    match a with
    | .accept c gc =>
      if s.opened.contains c = true then none
      else
        (s.server.accept c gc).map fun t => { s with server := t, opened := c :: s.opened }
    | .gotPdu c pdu succ =>
      (s.server.gotPdu c pdu succ).map fun t =>
        { s with server := t, received := (c, pdu) :: s.received }
    | .dispatch k w => s.dispatch cfg k w
    | .die c => (s.server.step cfg (.die c)).map fun t => { s with server := t }

end ReplySys

/-- Every reply that is about to be sent goes to a connection on which a
request of the client was received, and no dispatch has put a null pointer
into `conns_`, or taken one from there. -/
structure ValidReplies (cfg : Config ι Ω) (s : ReplySys ι Ω) : Prop where
  heard : ∀ j ∈ s.server.sys.jobs, ∀ c st b, j.phase = .send c st b →
    Heard cfg s.received (cltNonceOf cfg j.pdu) c
  nulls : s.nulls = []

/-- No dispatch for the nonce 0 finds that its connection has died. -/
def AliveIfAnonymous (cfg : Config ι Ω) (s : ReplySys ι Ω) : RefSys.Act ι Ω → Prop
  | .dispatch k _ => ∀ j, s.server.sys.jobs[k]? = some j →
    j.chooses = true → cltNonceOf cfg j.pdu = 0 → s.server.sys.srvDead j.conn = false
  | _ => True

/-! ## Without the counts -/

section

variable [DecidableEq ι] {cfg : Config ι Ω} {s s' : RefSys ι Ω} {j : Job ι} {rest : List (Job ι)}

/-- Underneath, the steps are those of the system. -/
theorem sys_start (h : s.start cfg j rest = some s') : s'.sys = s.sys.start cfg j rest := by
  unfold RefSys.start at h
  dsimp only at h
  generalize s.sys.start cfg j rest = t at h ⊢
  split at h
  · exact (decref_eq_some h).1
  split at h
  · exact (Option.some.inj h) ▸ rfl
  split at h
  · exact (decref_eq_some h).1
  split at h
  · split at h
    · exact (Option.some.inj h) ▸ rfl
    · split at h
      · obtain ⟨u, hu, rfl⟩ := Option.map_eq_some_iff.1 h
        exact (decref_eq_some hu).1
      · exact (Option.some.inj h) ▸ rfl
  · exact (Option.some.inj h) ▸ rfl

theorem sys_check (h : s.check cfg j rest = some s') : s'.sys = s.sys.check cfg j rest := by
  unfold RefSys.check at h
  dsimp only at h
  split at h
  · exact (decref_eq_some h).1
  · exact (Option.some.inj h) ▸ rfl

theorem sys_choose {b : List UInt8} (h : s.choose cfg j rest b = some s') :
    s.sys.choose cfg j rest b = some s'.sys := by
  unfold RefSys.choose at h
  obtain ⟨t, ht, h⟩ := Option.bind_eq_some_iff.1 h
  rw [ht]
  split at h
  · obtain ⟨c, -, h⟩ := Option.bind_eq_some_iff.1 h
    obtain ⟨u, hu, rfl⟩ := Option.map_eq_some_iff.1 h
    exact congrArg some (decref_eq_some hu).1.symm
  · exact (Option.some.inj h) ▸ rfl

theorem sys_send {c : Conn ι} {st : Option RpcState} {b : List UInt8}
    (h : s.send cfg j rest c st b = some s') : s'.sys = s.sys.send cfg j rest c b := by
  unfold RefSys.send at h
  dsimp only at h
  split at h
  · exact (Option.some.inj h) ▸ rfl
  · exact (decref_eq_some h).1

/-- A step of a job is one of `Rpc.System`. -/
theorem sys_dispatch {k : ℕ} {w : Ω} (h : s.dispatch cfg k w = some s') :
    s.sys.dispatch cfg k w = some s'.sys := by
  obtain ⟨j, hj, h⟩ := Option.bind_eq_some_iff.1 h
  unfold Sys.dispatch
  rw [hj]
  dsimp only at h ⊢
  rcases hphase : j.phase with _ | _ | _ | b | b | ⟨c, st, b⟩
  all_goals simp only [hphase] at h ⊢
  · rw [sys_start h]
  · rw [sys_check h]
  · obtain ⟨t, ht, rfl⟩ := Option.map_eq_some_iff.1 h
    exact ht
  · obtain rfl := Option.some.inj h
    rfl
  · exact sys_choose h
  · rw [sys_send h]

end

/-! ## The invariant -/

/-- The request came by the connection of the job, and the client has an
entry in `conns_` if it has a nonce. -/
def Entered (cfg : Config ι Ω) (received : List (Conn ι × List UInt8))
    (conns : UInt32 → Option (Conn ι)) (j : Job ι) : Prop :=
  Heard cfg received (cltNonceOf cfg j.pdu) j.conn ∧
    (cltNonceOf cfg j.pdu ≠ 0 → (conns (cltNonceOf cfg j.pdu)).isSome)

/-- What is known of a job on its way. -/
def JobHeard (cfg : Config ι Ω) (received : List (Conn ι × List UInt8))
    (conns : UInt32 → Option (Conn ι)) (j : Job ι) : Prop :=
  match j.phase with
  | .queued => (j.conn, j.pdu) ∈ received
  | .send c _ _ => Heard cfg received (cltNonceOf cfg j.pdu) c
  | .check | .handler | .addReply _ | .choose _ => Entered cfg received conns j

/-- The invariant: so of every job, and an entry of `conns_` is a
connection of the client. The nonce 0 has none. -/
structure Backed (cfg : Config ι Ω) (received : List (Conn ι × List UInt8)) (s : Sys ι Ω) :
    Prop where
  jobs : ∀ j ∈ s.jobs, JobHeard cfg received s.conns j
  conns : ∀ n c, s.conns n = some c → Heard cfg received n c
  zero : s.conns 0 = none

section

variable {cfg : Config ι Ω} {received received' : List (Conn ι × List UInt8)}
  {conns conns' : UInt32 → Option (Conn ι)} {s s' : Sys ι Ω} {j : Job ι} {rest : List (Job ι)}

/-- What was received stays received. -/
theorem Heard.mono {n : UInt32} {c : Conn ι} (h : Heard cfg received n c)
    (hsub : received ⊆ received') : Heard cfg received' n c := by
  obtain ⟨pdu, hmem, hpdu⟩ := h
  exact ⟨pdu, hsub hmem, hpdu⟩

theorem JobHeard.mono (h : JobHeard cfg received conns j) (hsub : received ⊆ received')
    (hconns : ∀ n, (conns n).isSome → (conns' n).isSome) : JobHeard cfg received' conns' j := by
  unfold JobHeard at h ⊢
  split at h
  · exact hsub h
  · exact h.mono hsub
  all_goals exact ⟨h.1.mono hsub, fun hn => hconns _ (h.2 hn)⟩

theorem Backed.mono (h : Backed cfg received s) (hsub : received ⊆ received') :
    Backed cfg received' s where
  jobs j hj := (h.jobs j hj).mono hsub fun _ => id
  conns n c hn := (h.conns n c hn).mono hsub
  zero := h.zero

/-- The job ends. -/
theorem Backed.drop (h : Backed cfg received s) (hperm : s.jobs.Perm (j :: rest))
    (hconns : s'.conns = s.conns) (hjobs : s'.jobs = rest) : Backed cfg received s' where
  jobs j' hj' := by
    rw [hjobs] at hj'
    rw [hconns]
    exact h.jobs j' ((mem_of_pick hperm).2 (.inr hj'))
  conns n c hn := h.conns n c (by rwa [← hconns])
  zero := by rw [hconns, h.zero]

/-- The job goes on. -/
theorem Backed.goto (h : Backed cfg received s) (hperm : s.jobs.Perm (j :: rest))
    (hconns : s'.conns = s.conns) {p : Phase ι} (hjobs : s'.jobs = j.goto p :: rest)
    (hp : JobHeard cfg received s.conns (j.goto p)) : Backed cfg received s' where
  jobs j' hj' := by
    rw [hjobs] at hj'
    rw [hconns]
    obtain rfl | hj' := List.mem_cons.1 hj'
    · exact hp
    · exact h.jobs j' ((mem_of_pick hperm).2 (.inr hj'))
  conns n c hn := h.conns n c (by rwa [← hconns])
  zero := by rw [hconns, h.zero]

/-- **The start of a dispatch**: the entry is made where there is a nonce. -/
theorem Backed.start (h : Backed cfg received s) (hperm : s.jobs.Perm (j :: rest))
    (hphase : j.phase = .queued) : Backed cfg received (s.start cfg j rest) := by
  have hj : JobHeard cfg received s.conns j := h.jobs j ((mem_of_pick hperm).2 (.inl rfl))
  unfold JobHeard at hj
  rw [hphase] at hj
  unfold Sys.start
  dsimp only
  by_cases hok : (Sys.parse cfg j.pdu).1.ok = false
  · rw [if_pos hok]
    exact h.drop hperm rfl rfl
  rw [if_neg hok]
  have hheard : Heard cfg received (cltNonceOf cfg j.pdu) j.conn :=
    ⟨j.pdu, hj, Bool.eq_true_of_not_eq_false hok, rfl⟩
  split
  · exact h.goto hperm rfl rfl hheard
  split
  · exact h.drop hperm rfl rfl
  split
  · rename_i hn
    -- the other jobs keep the entries that they have
    have hconns : ∀ n, (s.conns n).isSome →
        (if n = (Sys.parse cfg j.pdu).2.cltNonce then some j.conn else s.conns n).isSome := by
      intro n hsome
      split
      · rfl
      · exact hsome
    refine ⟨fun j' hj' => ?_, fun n c hc => ?_, ?_⟩
    · obtain rfl | hrest := List.mem_cons.1 hj'
      · refine ⟨hheard, fun _ => ?_⟩
        show (if cltNonceOf cfg j.pdu = cltNonceOf cfg j.pdu then some j.conn
          else s.conns (cltNonceOf cfg j.pdu)).isSome = true
        rw [if_pos rfl, Option.isSome_some]
      · exact (h.jobs j' ((mem_of_pick hperm).2 (.inr hrest))).mono (List.Subset.refl _) hconns
    · dsimp only at hc
      split at hc
      · rename_i hn'
        rw [hn', ← Option.some.inj hc]
        exact hheard
      · exact h.conns n c hc
    · dsimp only
      rw [if_neg (Ne.symm hn), h.zero]
  · rename_i hn
    exact h.goto hperm rfl rfl ⟨hheard, fun hne => absurd hne hn⟩

/-- The classification touches no connection. -/
theorem Backed.check (h : Backed cfg received s) (hperm : s.jobs.Perm (j :: rest))
    (hj : Entered cfg received s.conns j) : Backed cfg received (s.check cfg j rest) := by
  unfold Sys.check
  dsimp only
  split
  · exact h.goto hperm rfl rfl hj
  · exact h.drop hperm rfl rfl
  · exact h.goto hperm rfl rfl hj.1
  · exact h.goto hperm rfl rfl hj.1

theorem Backed.runHandler (h : Backed cfg received s) (hperm : s.jobs.Perm (j :: rest))
    (hj : Entered cfg received s.conns j) {w : Ω} (hs : s.runHandler cfg j rest w = some s') :
    Backed cfg received s' := by
  unfold Sys.runHandler at hs
  dsimp only at hs
  split at hs
  · exact absurd hs.symm (Option.some_ne_none s')
  split at hs
  · exact absurd hs.symm (Option.some_ne_none s')
  obtain rfl := Option.some.inj hs
  refine h.goto hperm rfl rfl ?_
  split
  · exact hj
  · exact hj

/-- The choice of the connection: the job keeps its own, or takes that of
the entry. -/
theorem Backed.choose [DecidableEq ι] (h : Backed cfg received s) (hperm : s.jobs.Perm (j :: rest))
    (hj : Entered cfg received s.conns j) {b : List UInt8}
    (hs : s.choose cfg j rest b = some s') : Backed cfg received s' := by
  unfold Sys.choose at hs
  dsimp only at hs
  split at hs
  · obtain ⟨c, hc, rfl⟩ := Option.map_eq_some_iff.1 hs
    exact h.goto hperm rfl rfl (h.conns _ c hc)
  · obtain rfl := Option.some.inj hs
    exact h.goto hperm rfl rfl hj.1

/-- **A step of a job.** -/
theorem Backed.dispatch [DecidableEq ι] (h : Backed cfg received s) {k : ℕ} {w : Ω}
    (hs : s.dispatch cfg k w = some s') : Backed cfg received s' := by
  unfold Sys.dispatch at hs
  split at hs
  · exact absurd hs.symm (Option.some_ne_none s')
  rename_i j hk
  have hperm := perm_eraseIdx hk
  have hj : JobHeard cfg received s.conns j := h.jobs j (List.mem_of_getElem? hk)
  unfold JobHeard at hj
  dsimp only at hs
  split at hs
  · rename_i hphase
    exact Option.some.inj hs ▸ h.start hperm hphase
  · rename_i hphase
    rw [hphase] at hj
    exact Option.some.inj hs ▸ h.check hperm hj
  · rename_i hphase
    rw [hphase] at hj
    exact h.runHandler hperm hj hs
  · rename_i hphase
    rw [hphase] at hj
    exact Option.some.inj hs ▸ h.goto hperm rfl rfl hj
  · rename_i hphase
    rw [hphase] at hj
    exact h.choose hperm hj hs
  · exact Option.some.inj hs ▸ h.drop hperm rfl rfl

end

/-! ## Runs -/

section

variable [DecidableEq ι] {cfg : Config ι Ω} {s s' : ReplySys ι Ω}

/-- The invariant of the server. -/
structure Valid (cfg : Config ι Ω) (s : ReplySys ι Ω) : Prop where
  backed : Backed cfg s.received s.server.sys
  nulls : s.nulls = []

omit [DecidableEq ι] in
theorem valid_init : Valid cfg (.init : ReplySys ι Ω) where
  backed := by
    refine ⟨fun _ hj => absurd hj List.not_mem_nil, fun _ c hn => ?_, rfl⟩
    exact absurd hn.symm (Option.some_ne_none c)
  nulls := rfl

omit [DecidableEq ι] in
theorem Valid.running (h : Valid cfg s) : ¬ s.nulls.isEmpty = false := by
  rw [h.nulls]
  exact Bool.noConfusion

omit [DecidableEq ι] in
/-- The invariant gives the promise. -/
theorem Valid.validReplies (h : Valid cfg s) : ValidReplies cfg s where
  heard j hj c st b hphase := by
    have hheard := h.backed.jobs j hj
    unfold JobHeard at hheard
    rw [hphase] at hheard
    exact hheard
  nulls := h.nulls

/-- A request is received. -/
theorem Backed.gotPdu {received : List (Conn ι × List UInt8)} {t t' : RefSys ι Ω} {c : Conn ι}
    {pdu : List UInt8} {succ : Bool} (h : Backed cfg received t.sys)
    (ht : t.gotPdu c pdu succ = some t') : Backed cfg ((c, pdu) :: received) t'.sys := by
  have hmono := h.mono (List.subset_cons_self (c, pdu) received)
  unfold RefSys.gotPdu at ht
  split at ht
  · exact absurd ht.symm (Option.some_ne_none t')
  split at ht
  · obtain rfl := Option.some.inj ht
    refine ⟨fun j hj => ?_, hmono.conns, hmono.zero⟩
    obtain rfl | hj := List.mem_cons.1 hj
    · exact List.mem_cons_self
    · exact hmono.jobs j hj
  · rw [(decref_eq_some ht).1]
    exact hmono

/-- **One step** keeps the invariant, unless a dispatch for the nonce 0
has lost its connection. -/
theorem Valid.step {a : RefSys.Act ι Ω} (h : Valid cfg s) (halive : AliveIfAnonymous cfg s a)
    (hs : s.step cfg a = some s') : Valid cfg s' := by
  unfold ReplySys.step at hs
  rw [if_neg h.running] at hs
  rcases a with ⟨c, gc⟩ | ⟨c, pdu, succ⟩ | ⟨k, w⟩ | c
  · -- a new connection has received nothing
    dsimp only at hs
    split at hs
    · exact absurd hs.symm (Option.some_ne_none s')
    obtain ⟨t, ht, rfl⟩ := Option.map_eq_some_iff.1 hs
    unfold RefSys.accept at ht
    rw [Option.ite_none_right_eq_some] at ht
    obtain rfl := Option.some.inj ht.2
    exact ⟨⟨h.backed.jobs, h.backed.conns, h.backed.zero⟩, h.nulls⟩
  · obtain ⟨t, ht, rfl⟩ := Option.map_eq_some_iff.1 hs
    exact ⟨h.backed.gotPdu ht, h.nulls⟩
  · obtain ⟨j, hk, hs⟩ := Option.bind_eq_some_iff.1 hs
    dsimp only at hs
    split at hs
    · rename_i hnull
      obtain ⟨hchooses, hdead, hnone⟩ := hnull
      have hj := h.backed.jobs j (List.mem_of_getElem? hk)
      unfold Job.chooses at hchooses
      unfold JobHeard at hj
      split at hchooses
      · rename_i b hphase
        rw [hphase] at hj
        -- the client has no entry, so its nonce is 0
        have hzero : cltNonceOf cfg j.pdu = 0 := by
          by_contra hne
          have hsome := hj.2 hne
          rw [hnone] at hsome
          exact Bool.false_ne_true hsome
        have halive' := halive j hk (by unfold Job.chooses; rw [hphase]) hzero
        rw [hdead] at halive'
        exact Bool.noConfusion halive'
      · exact absurd hchooses Bool.false_ne_true
    · obtain ⟨t, ht, rfl⟩ := Option.map_eq_some_iff.1 hs
      exact ⟨h.backed.dispatch (sys_dispatch ht), h.nulls⟩
  · obtain ⟨t, ht, rfl⟩ := Option.map_eq_some_iff.1 hs
    unfold RefSys.step at ht
    rw [Option.ite_none_left_eq_some] at ht
    obtain rfl := Option.some.inj ht.2
    exact ⟨⟨h.backed.jobs, h.backed.conns, h.backed.zero⟩, h.nulls⟩

/-- A dispatch for the nonce 0 that has lost its connection takes a null
pointer: the nonce 0 has no entry. -/
theorem Valid.aliveIfAnonymous {a : RefSys.Act ι Ω} (h : Valid cfg s)
    (hvalid : ∀ s', s.step cfg a = some s' → ValidReplies cfg s') : AliveIfAnonymous cfg s a := by
  rcases a with ⟨c, gc⟩ | ⟨c, pdu, succ⟩ | ⟨k, w⟩ | c
  · trivial
  · trivial
  · intro j hk hchooses hzero
    by_contra hdead
    have hdead := Bool.eq_true_of_not_eq_false hdead
    have hstep : s.step cfg (.dispatch k w) =
        some { s with nulls := cltNonceOf cfg j.pdu :: s.nulls } := by
      have hnone : s.server.sys.conns (cltNonceOf cfg j.pdu) = none := by
        rw [hzero, h.backed.zero]
      unfold ReplySys.step ReplySys.dispatch
      rw [if_neg h.running]
      dsimp only
      rw [hk, Option.bind_some, if_pos ⟨hchooses, hdead, hnone⟩]
    exact absurd (hvalid _ hstep).nulls (List.cons_ne_nil _ _)
  · trivial

/-- **Replies have a connection of the client, exactly where no client
without a nonce loses its own.** In a run from the start, with any
connections accepted and dying at any time, any PDUs, and any order of
the jobs, every reply goes to a connection on which a request with its
`clt_nonce` was received and no null pointer gets into `conns_` if and
only if no dispatch of a request with the nonce 0 comes to the choice of
its connection when that is dead. -/
theorem validReplies_iff (acts : List (RefSys.Act ι Ω)) :
    Along (ReplySys.step cfg) (ValidReplies cfg) .init acts ↔
      Steps (ReplySys.step cfg) (AliveIfAnonymous cfg) .init acts :=
  along_iff_steps (fun _ h => h.validReplies) (fun _ _ _ h halive hs => h.step halive hs)
    (fun _ _ h hvalid => h.aliveIfAnonymous hvalid) valid_init

end

/-- A request with the nonce 0 is received, and the connection dies while
the handler runs. -/
def anonymousRun : List (RefSys.Act Unit Unit) :=
  [.accept ⟨(), 0⟩ [],
    .gotPdu ⟨(), 0⟩
      [0, 0, 0, 28, 0, 0, 0, 1, 0, 0, 0, 2, 0, 0, 0, 0, 0, 0, 0, 0, 0, 0, 0, 0, 0, 0, 0, 5] true,
    .dispatch 0 (), .die ⟨(), 0⟩, .dispatch 0 (), .dispatch 0 ()]

theorem not_validReplies_anonymousRun :
    ¬ Along (ReplySys.step oneClient) (ValidReplies oneClient) .init anonymousRun := by
  intro h
  have hlast := h.last
    (show exec (ReplySys.step oneClient) .init anonymousRun = some _ from rfl)
  exact absurd hlast.nulls (List.cons_ne_nil 0 [])

end Rpc

end Yfs
