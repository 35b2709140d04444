import Mathlib.Data.Set.Card
import Yfs.Rpc.Based

/-!
# References to connections

The server counts the references to a connection in `refno_`: one is the
listener's, as long as it has the connection in its map; each dispatch
job has one, and each entry of `conns_`. `got_pdu` and `dispatch` take
and drop them on their many ways out. One of these, the answer to a
request for an old instance of the server, does not drop the reference of
the job; `exact_iff` says that the counts are right exactly as long as
no dispatch leaves that way.
-/

namespace Yfs

open Common

namespace Rpc

variable {ι Ω : Type}

/-! ## State -/

/-- A server with its listener. -/
structure RefSys (ι Ω : Type) where
  /-- The server. Of the clients and the network nothing is used: a PDU
  can be any. -/
  sys : Sys ι Ω
  /-- `tcpsconn::conns_`. -/
  accepted : List (Conn ι)
  /-- `refno_`. -/
  refno : Conn ι → ℤ

namespace RefSys

/-- No connection has been accepted. -/
def init : RefSys ι Ω := ⟨.init, [], fun _ => 0⟩

/-- What can happen. -/
inductive Act (ι Ω : Type) where
  /-- `process_accept`: the new connection, and the ones collected. -/
  | accept (c : Conn ι) (gc : List (Conn ι))
  /-- `got_pdu`; `succ` says whether there is room in the queue. -/
  | gotPdu (c : Conn ι) (pdu : List UInt8) (succ : Bool)
  /-- The next step of the `k`-th job. -/
  | dispatch (k : ℕ) (w : Ω)
  /-- A connection is found dead. -/
  | die (c : Conn ι)

variable [DecidableEq ι]

/-- `connection::incref`. -/
def incref (s : RefSys ι Ω) (c : Conn ι) : RefSys ι Ω :=
  { s with refno := Function.update s.refno c (s.refno c + 1) }

/-- `connection::decref`. The memory of a dead connection with no
references is freed, of which nothing is seen here. -/
def decref (s : RefSys ι Ω) (c : Conn ι) : Option (RefSys ι Ω) :=
  if s.refno c - 1 < 0 then none
  else some { s with refno := Function.update s.refno c (s.refno c - 1) }

/-- `tcpsconn::process_accept`. A dead connection with one reference is
collected. The loop goes on from an iterator it has erased, so whether it
gets to the others is left open. -/
def accept (s : RefSys ι Ω) (c : Conn ι) (gc : List (Conn ι)) : Option (RefSys ι Ω) :=
  if c ∉ s.accepted ∧ ∀ d ∈ gc, d ∈ s.accepted ∧ s.sys.srvDead d = true ∧ s.refno d = 1 then
    some {
      sys := { s.sys with srvDead := Function.update s.sys.srvDead c false }
      accepted := c :: s.accepted.filter fun d => decide (d ∉ gc)
      refno := Function.update (fun d => if d ∈ gc then s.refno d - 1 else s.refno d) c 1 }
  else none

/-- `rpcs::got_pdu`. -/
def gotPdu (s : RefSys ι Ω) (c : Conn ι) (pdu : List UInt8) (succ : Bool) :
    Option (RefSys ι Ω) :=
  if c ∉ s.accepted then none
  else if succ then
    some { s.incref c with sys := { s.sys with jobs := ⟨c, pdu, .queued⟩ :: s.sys.jobs } }
  else (s.incref c).decref c

/-- The start of `dispatch`. -/
def start (cfg : Config ι Ω) (s : RefSys ι Ω) (j : Job ι) (rest : List (Job ι)) :
    Option (RefSys ι Ω) :=
  let r := Sys.parse cfg j.pdu
  let t := { s with sys := s.sys.start cfg j rest }
  if r.1.ok = false then t.decref j.conn
  else if r.2.srvNonce ≠ 0 ∧ r.2.srvNonce ≠ cfg.nonce then some t
  else if (cfg.procs r.2.proc).isNone then t.decref j.conn
  else if r.2.cltNonce ≠ 0 then
    match s.sys.conns r.2.cltNonce with
    | none => some (t.incref j.conn)
    | some c => if c ≠ j.conn then (t.decref c).map fun t => t.incref j.conn else some t
  else some t

/-- `checkduplicate_and_update`. A duplicate of a request that is being
worked on leaves the `switch` at once. -/
def check (cfg : Config ι Ω) (s : RefSys ι Ω) (j : Job ι) (rest : List (Job ι)) :
    Option (RefSys ι Ω) :=
  let h := (Sys.parse cfg j.pdu).2
  let r := checkduplicateAndUpdate (s.sys.replyWindow h.cltNonce) h.xid.toUInt32.toNat
    h.xidRep.toUInt32.toNat
  let t := { s with sys := s.sys.check cfg j rest }
  if r.2.1 = .inprogress then t.decref j.conn else some t

/-- The choice of the connection, which may swap it for a newer one. -/
def choose (cfg : Config ι Ω) (s : RefSys ι Ω) (j : Job ι) (rest : List (Job ι))
    (b : List UInt8) : Option (RefSys ι Ω) :=
  let latest := s.sys.conns (Sys.parse cfg j.pdu).2.cltNonce
  (s.sys.choose cfg j rest b).bind fun t =>
    if s.sys.srvDead j.conn = true ∧ latest ≠ some j.conn then
      latest.bind fun c => (decref { s with sys := t } j.conn).map fun t => t.incref c
    else some { s with sys := t }

/-- `send`, and the end of `dispatch`. The branch for an old instance
returns before the last `decref`. -/
def send (cfg : Config ι Ω) (s : RefSys ι Ω) (j : Job ι) (rest : List (Job ι)) (c : Conn ι)
    (st : Option RpcState) (b : List UInt8) : Option (RefSys ι Ω) :=
  let t := { s with sys := s.sys.send cfg j rest c b }
  match st with
  | none => some t
  | some _ => t.decref c

/-- The next step of a job. -/
def dispatch (cfg : Config ι Ω) (s : RefSys ι Ω) (k : ℕ) (w : Ω) : Option (RefSys ι Ω) :=
  s.sys.jobs[k]?.bind fun j =>
    let rest := s.sys.jobs.eraseIdx k
    match j.phase with
    | .queued => s.start cfg j rest
    | .check => s.check cfg j rest
    | .handler => (s.sys.runHandler cfg j rest w).map fun t => { s with sys := t }
    | .addReply b => some { s with sys := s.sys.storeReply cfg j rest b }
    | .choose b => s.choose cfg j rest b
    | .send c st b => s.send cfg j rest c st b

/-- One step. -/
def step (cfg : Config ι Ω) (s : RefSys ι Ω) : Act ι Ω → Option (RefSys ι Ω)
  | .accept c gc => s.accept c gc
  | .gotPdu c pdu succ => s.gotPdu c pdu succ
  | .dispatch k w => s.dispatch cfg k w
  | .die c =>
    if c ∉ s.accepted then none
    else some { s with sys := { s.sys with srvDead := Function.update s.sys.srvDead c true } }

end RefSys

/-! ## What is counted -/

/-- The connection a job holds. -/
def Job.held (j : Job ι) : Conn ι :=
  match j.phase with
  | .send c _ _ => c
  | _ => j.conn

/-- The references there are to a connection. -/
noncomputable def refs [DecidableEq ι] (accepted : List (Conn ι)) (jobs : List (Job ι))
    (conns : UInt32 → Option (Conn ι)) (c : Conn ι) : ℤ :=
  (if c ∈ accepted then 1 else 0) + (jobs.countP (fun j => j.held = c) : ℤ) +
    ({n | conns n = some c}.ncard : ℤ)

/-- All counts are right. -/
def Exact [DecidableEq ι] (s : RefSys ι Ω) : Prop :=
  ∀ c, s.refno c = refs s.accepted s.sys.jobs s.sys.conns c

/-- No dispatch returns from the branch for an old instance of the
server. -/
def LeavesByEnd (s : RefSys ι Ω) : RefSys.Act ι Ω → Prop
  | .dispatch k _ => ∀ j, s.sys.jobs[k]? = some j → ∀ c b, j.phase ≠ .send c none b
  | _ => True

/-! ## Counting -/

variable [DecidableEq ι] {cfg : Config ι Ω} {s s' : RefSys ι Ω}

theorem refno_incref (s : RefSys ι Ω) (d c : Conn ι) :
    (s.incref d).refno c = s.refno c + if d = c then 1 else 0 := by
  unfold RefSys.incref
  dsimp only
  by_cases h : d = c
  · rw [if_pos h, h, Function.update_self]
  · rw [if_neg h, Function.update_of_ne (Ne.symm h), Int.add_zero]

theorem decref_eq_some {d : Conn ι} (h : s.decref d = some s') :
    s'.sys = s.sys ∧ s'.accepted = s.accepted ∧
      ∀ c, s'.refno c = s.refno c - if d = c then 1 else 0 := by
  unfold RefSys.decref at h
  split at h
  · cases h
  · obtain rfl := Option.some.inj h
    refine ⟨rfl, rfl, fun c => ?_⟩
    dsimp only
    by_cases h : d = c
    · rw [if_pos h, h, Function.update_self]
    · rw [if_neg h, Function.update_of_ne (Ne.symm h), Int.sub_zero]

/-- A set, with one point of it apart. -/
theorem ncard_eq_sdiff {β : Type*} [Finite β] (A : Set β) (n : β) [Decidable (n ∈ A)] :
    A.ncard = (A \ {n}).ncard + if n ∈ A then 1 else 0 := by
  by_cases h : n ∈ A
  · rw [if_pos h, Set.ncard_sdiff_singleton_add_one h (Set.toFinite A)]
  · rw [if_neg h, Set.sdiff_singleton_eq_self h, Nat.add_zero]

/-- The fibers of a function that is changed at one point. -/
theorem ncard_fiber_update {β γ : Type*} [Finite β] [DecidableEq β] [DecidableEq γ] (f : β → γ)
    (n : β) (v w : γ) :
    ({m | (if m = n then v else f m) = w}.ncard : ℤ) =
      {m | f m = w}.ncard + (if v = w then 1 else 0) - if f n = w then 1 else 0 := by
  have hsame : {m | (if m = n then v else f m) = w} \ {n} = {m | f m = w} \ {n} := by
    ext m
    by_cases hm : m = n
    · simp [hm]
    · simp [hm]
  have hnew := ncard_eq_sdiff {m | (if m = n then v else f m) = w} n
  have hold := ncard_eq_sdiff {m | f m = w} n
  rw [hsame] at hnew
  simp only [Set.mem_ofPred_eq, if_true] at hnew hold
  rw [hnew, hold]
  push_cast
  omega

instance finite_uint32 : Finite UInt32 :=
  Finite.of_injective UInt32.toFin fun _ _ => UInt32.toFin_inj.1

section

variable {accepted : List (Conn ι)} {jobs rest : List (Job ι)} {conns : UInt32 → Option (Conn ι)}

theorem refs_cons (j : Job ι) (c : Conn ι) :
    refs accepted (j :: jobs) conns c =
      refs accepted jobs conns c + if j.held = c then 1 else 0 := by
  rw [refs, refs, List.countP_cons]
  by_cases h : j.held = c
  · simp only [h, decide_true, if_true]
    push_cast
    omega
  · simp [h]

theorem refs_pick {j : Job ι} (h : jobs.Perm (j :: rest)) (c : Conn ι) :
    refs accepted jobs conns c = refs accepted rest conns c + if j.held = c then 1 else 0 := by
  rw [← refs_cons, refs, refs, h.countP_eq]

/-- The connection of one client is replaced. -/
theorem refs_conns (n : UInt32) (d c : Conn ι) :
    refs accepted jobs (fun m => if m = n then some d else conns m) c =
      refs accepted jobs conns c + (if d = c then 1 else 0) -
        if conns n = some c then 1 else 0 := by
  rw [refs, refs, ncard_fiber_update]
  simp only [Option.some.injEq]
  omega

end

/-! ## The invariant -/

/-- The invariant: the counts are right, and 0 for a connection that the
listener does not have. -/
structure Counted (s : RefSys ι Ω) : Prop where
  exact : Exact s
  zero : ∀ c ∉ s.accepted, s.refno c = 0

theorem counted_init : Counted (.init : RefSys ι Ω) where
  exact c := by
    simp [RefSys.init, Sys.init, refs]
  zero _ _ := rfl

/-- A job holds a connection that the listener has, -/
theorem Counted.held (h : Counted s) {j : Job ι} (hj : j ∈ s.sys.jobs) : j.held ∈ s.accepted := by
  by_contra hno
  have hexact := h.exact j.held
  have hpos : 0 < s.sys.jobs.countP (fun k => k.held = j.held) :=
    List.countP_pos_iff.2 ⟨j, hj, by simp⟩
  rw [h.zero _ hno, refs, if_neg hno] at hexact
  omega

/-- and so does an entry of `conns_`. -/
theorem Counted.stored (h : Counted s) {n : UInt32} {c : Conn ι} (hn : s.sys.conns n = some c) :
    c ∈ s.accepted := by
  by_contra hno
  have hexact := h.exact c
  have hpos : 0 < {n | s.sys.conns n = some c}.ncard :=
    (Set.ncard_pos (Set.toFinite _)).2 ⟨n, hn⟩
  rw [h.zero _ hno, refs, if_neg hno] at hexact
  omega

theorem zero_incref (h : ∀ c ∉ s.accepted, s.refno c = 0) {d : Conn ι} (hd : d ∈ s.accepted) :
    ∀ c ∉ s.accepted, (s.incref d).refno c = 0 := by
  intro c hc
  have hne : d ≠ c := fun heq => hc (heq ▸ hd)
  rw [refno_incref, if_neg hne, h c hc, Int.add_zero]

theorem zero_decref (h : ∀ c ∉ s.accepted, s.refno c = 0) {d : Conn ι} (hs : s.decref d = some s') :
    ∀ c ∉ s.accepted, s'.refno c = 0 := by
  intro c hc
  have hne : d ≠ c := by
    rintro rfl
    rw [RefSys.decref, h d hc, if_pos (by decide)] at hs
    cases hs
  rw [(decref_eq_some hs).2.2 c, if_neg hne, h c hc, Int.sub_zero]

/-! ## Steps -/

/-- A job goes on to a place where it holds the same connection. -/
theorem Counted.goto (h : Counted s) {j j' : Job ι} {rest : List (Job ι)} {t : Sys ι Ω}
    (hperm : s.sys.jobs.Perm (j :: rest)) (hjobs : t.jobs = j' :: rest)
    (hconns : t.conns = s.sys.conns) (hheld : j'.held = j.held) : Counted { s with sys := t } where
  exact c := by
    dsimp only
    rw [h.exact c, refs_pick hperm, hjobs, hconns, refs_cons, hheld]
  zero := h.zero

/-- A job ends, and drops the connection it holds. -/
theorem Counted.drop (h : Counted s) {j : Job ι} {rest : List (Job ι)} {t : Sys ι Ω}
    (hperm : s.sys.jobs.Perm (j :: rest))
    (hs : RefSys.decref { s with sys := t } j.held = some s') (hjobs : t.jobs = rest)
    (hconns : t.conns = s.sys.conns) : Counted s' := by
  obtain ⟨hsys, hacc, hrefno⟩ := decref_eq_some hs
  refine ⟨fun c => ?_, ?_⟩
  · rw [hrefno, hsys, hacc, hjobs, hconns]
    dsimp only
    rw [h.exact c, refs_pick hperm]
    omega
  · rw [hacc]
    exact zero_decref h.zero hs

/-- The entry of a client is set to the connection of a job. -/
theorem Counted.store (h : Counted s) {j : Job ι} {rest : List (Job ι)} {n : UInt32}
    (hperm : s.sys.jobs.Perm (j :: rest)) (hphase : j.phase = .queued) {t : Sys ι Ω}
    (hjobs : t.jobs = j.goto .check :: rest)
    (hconns : t.conns = fun m => if m = n then some j.conn else s.sys.conns m)
    (hs : (match s.sys.conns n with
      | none => some (RefSys.incref { s with sys := t } j.conn)
      | some c =>
        if c ≠ j.conn then (RefSys.decref { s with sys := t } c).map fun t => t.incref j.conn
        else some { s with sys := t }) = some s') : Counted s' := by
  have hheld : j.held = j.conn := by rw [Job.held, hphase]
  have hconn : j.conn ∈ s.accepted := hheld ▸ h.held (hperm.symm.subset List.mem_cons_self)
  have hrefs : ∀ c, refs s.accepted t.jobs t.conns c =
      s.refno c + (if j.conn = c then 1 else 0) - if s.sys.conns n = some c then 1 else 0 := by
    intro c
    rw [hjobs, hconns, refs_conns, refs_cons, h.exact c, refs_pick hperm, hheld]
    rfl
  split at hs
  · -- there was no entry
    rename_i hn
    obtain rfl := Option.some.inj hs
    refine ⟨fun c => Eq.trans ?_ (hrefs c).symm,
      zero_incref (s := { s with sys := t }) h.zero hconn⟩
    rw [refno_incref, hn, if_neg (c := none = some c) (by simp), Int.sub_zero]
  · rename_i d hn
    split at hs
    · -- the entry was another connection
      obtain ⟨u, hu, rfl⟩ := Option.map_eq_some_iff.1 hs
      obtain ⟨hsys, hacc, hrefno⟩ := decref_eq_some hu
      refine ⟨fun c => ?_, zero_incref ?_ (hacc ▸ hconn)⟩
      · change (u.incref j.conn).refno c = refs u.accepted u.sys.jobs u.sys.conns c
        rw [refno_incref, hrefno, hacc, hsys]
        dsimp only
        rw [hrefs, hn]
        simp only [Option.some.injEq]
        omega
      · rw [hacc]
        exact zero_decref (s := { s with sys := t }) h.zero hu
    · -- the entry stays
      rename_i heq
      obtain rfl := Option.some.inj hs
      refine ⟨fun c => Eq.trans ?_ (hrefs c).symm, h.zero⟩
      rw [hn, not_not.1 heq]
      simp only [Option.some.injEq]
      omega

theorem Counted.start (h : Counted s) {j : Job ι} {rest : List (Job ι)}
    (hperm : s.sys.jobs.Perm (j :: rest)) (hphase : j.phase = .queued)
    (hs : s.start cfg j rest = some s') : Counted s' := by
  have hheld : j.held = j.conn := by rw [Job.held, hphase]
  unfold RefSys.start Sys.start at hs
  dsimp only at hs
  by_cases hok : (Sys.parse cfg j.pdu).1.ok = false
  · simp only [if_pos hok] at hs
    rw [← hheld] at hs
    exact h.drop hperm hs rfl rfl
  simp only [if_neg hok] at hs
  by_cases hold :
    (Sys.parse cfg j.pdu).2.srvNonce ≠ 0 ∧ (Sys.parse cfg j.pdu).2.srvNonce ≠ cfg.nonce
  · simp only [if_pos hold] at hs
    exact Option.some.inj hs ▸ h.goto hperm rfl rfl hheld.symm
  simp only [if_neg hold] at hs
  by_cases hproc : (cfg.procs (Sys.parse cfg j.pdu).2.proc).isNone = true
  · simp only [if_pos hproc] at hs
    rw [← hheld] at hs
    exact h.drop hperm hs rfl rfl
  simp only [if_neg hproc] at hs
  by_cases hn : (Sys.parse cfg j.pdu).2.cltNonce ≠ 0
  · simp only [if_pos hn] at hs
    exact h.store hperm hphase rfl rfl hs
  · simp only [if_neg hn] at hs
    exact Option.some.inj hs ▸ h.goto hperm rfl rfl hheld.symm

theorem Counted.check (h : Counted s) {j : Job ι} {rest : List (Job ι)}
    (hperm : s.sys.jobs.Perm (j :: rest)) (hphase : j.phase = .check)
    (hs : s.check cfg j rest = some s') : Counted s' := by
  have hheld : j.held = j.conn := by rw [Job.held, hphase]
  unfold RefSys.check at hs
  dsimp only at hs
  split at hs
  · rename_i hst
    rw [← hheld] at hs
    refine h.drop hperm hs ?_ rfl
    unfold Sys.check
    dsimp only
    rw [hst]
  · rename_i hst
    obtain rfl := Option.some.inj hs
    have hjobs : ∃ p, (s.sys.check cfg j rest).jobs = j.goto p :: rest ∧
        (j.goto p).held = j.conn := by
      unfold Sys.check
      dsimp only
      split
      · exact ⟨_, rfl, rfl⟩
      · rename_i hin
        exact absurd hin hst
      · exact ⟨_, rfl, rfl⟩
      · exact ⟨_, rfl, rfl⟩
    obtain ⟨p, hjobs, hheld'⟩ := hjobs
    exact h.goto hperm hjobs rfl (hheld'.trans hheld.symm)

/-- The job swaps the connection it holds for that of the client's entry,
or keeps it. -/
theorem Counted.choose (h : Counted s) {j : Job ι} {rest : List (Job ι)} {b : List UInt8}
    (hperm : s.sys.jobs.Perm (j :: rest)) (hphase : j.phase = .choose b)
    (hs : s.choose cfg j rest b = some s') : Counted s' := by
  have hheld : j.held = j.conn := by rw [Job.held, hphase]
  unfold RefSys.choose Sys.choose at hs
  dsimp only at hs
  split at hs
  · obtain ⟨t, ht, hs⟩ := Option.bind_eq_some_iff.1 hs
    obtain ⟨d, hd, rfl⟩ := Option.map_eq_some_iff.1 ht
    rw [hd, Option.bind_some] at hs
    obtain ⟨u, hu, rfl⟩ := Option.map_eq_some_iff.1 hs
    obtain ⟨hsys, hacc, hrefno⟩ := decref_eq_some hu
    refine ⟨fun c => ?_, zero_incref ?_ (hacc ▸ h.stored hd)⟩
    · change (u.incref d).refno c = refs u.accepted u.sys.jobs u.sys.conns c
      rw [refno_incref, hrefno, hacc, hsys]
      dsimp only
      rw [refs_cons, h.exact c, refs_pick hperm, hheld]
      change _ = _ + if d = c then 1 else 0
      omega
    · rw [hacc]
      exact zero_decref h.zero hu
  · exact Option.some.inj hs ▸ h.goto hperm rfl rfl hheld.symm

/-- The last step of a dispatch, but for the branch for an old instance. -/
theorem Counted.send (h : Counted s) {j : Job ι} {rest : List (Job ι)} {c : Conn ι}
    {st : RpcState} {b : List UInt8} (hperm : s.sys.jobs.Perm (j :: rest))
    (hphase : j.phase = .send c (some st) b)
    (hs : s.send cfg j rest c (some st) b = some s') : Counted s' := by
  have hheld : j.held = c := by rw [Job.held, hphase]
  have hdrop : RefSys.decref { s with sys := s.sys.send cfg j rest c b } j.held = some s' := by
    rw [hheld]
    exact hs
  exact h.drop hperm hdrop rfl rfl

omit [DecidableEq ι] in
theorem runHandler_jobs {s t : Sys ι Ω} {j : Job ι} {rest : List (Job ι)} {w : Ω}
    (h : s.runHandler cfg j rest w = some t) :
    ∃ p, t.jobs = j.goto p :: rest ∧ (j.goto p).held = j.conn ∧ t.conns = s.conns := by
  unfold Sys.runHandler at h
  dsimp only at h
  split at h
  · cases h
  · split at h
    · cases h
    · obtain rfl := Option.some.inj h
      refine ⟨_, rfl, ?_, rfl⟩
      split
      · rfl
      · rfl

theorem Counted.dispatch (h : Counted s) {k : ℕ} {w : Ω}
    (hend : LeavesByEnd s (.dispatch k w)) (hs : s.dispatch cfg k w = some s') : Counted s' := by
  obtain ⟨j, hj, hs⟩ := Option.bind_eq_some_iff.1 hs
  have hperm := perm_eraseIdx hj
  dsimp only at hs
  split at hs
  · rename_i hphase
    exact h.start hperm hphase hs
  · rename_i hphase
    exact h.check hperm hphase hs
  · rename_i hphase
    obtain ⟨t, ht, rfl⟩ := Option.map_eq_some_iff.1 hs
    have hheld : j.held = j.conn := by rw [Job.held, hphase]
    obtain ⟨p, hjobs, hheld', hconns⟩ := runHandler_jobs ht
    exact h.goto hperm hjobs hconns (hheld'.trans hheld.symm)
  · rename_i b hphase
    have hheld : j.held = j.conn := by rw [Job.held, hphase]
    exact Option.some.inj hs ▸ h.goto hperm rfl rfl hheld.symm
  · rename_i b hphase
    exact h.choose hperm hphase hs
  · rename_i c st b hphase
    cases st with
    | none => exact absurd hphase (hend j hj c b)
    | some st => exact h.send hperm hphase hs

theorem Counted.gotPdu (h : Counted s) {c : Conn ι} {pdu : List UInt8} {succ : Bool}
    (hs : s.gotPdu c pdu succ = some s') : Counted s' := by
  unfold RefSys.gotPdu at hs
  split at hs
  · cases hs
  rename_i hc
  have hc := not_not.1 hc
  split at hs
  · obtain rfl := Option.some.inj hs
    refine ⟨fun d => ?_, zero_incref h.zero hc⟩
    change (s.incref c).refno d = refs s.accepted (_ :: s.sys.jobs) s.sys.conns d
    rw [refno_incref, refs_cons, h.exact d]
    rfl
  · obtain ⟨hsys, hacc, hrefno⟩ := decref_eq_some hs
    refine ⟨fun d => ?_, ?_⟩
    · rw [hrefno, hsys, hacc, refno_incref, h.exact d]
      change _ = refs s.accepted s.sys.jobs s.sys.conns d
      omega
    · rw [hacc]
      exact zero_decref (zero_incref h.zero hc) hs

theorem Counted.accept (h : Counted s) {c : Conn ι} {gc : List (Conn ι)}
    (hs : s.accept c gc = some s') : Counted s' := by
  unfold RefSys.accept at hs
  split at hs
  · rename_i hguard
    obtain ⟨hfresh, hgc⟩ := hguard
    obtain rfl := Option.some.inj hs
    have hother : ∀ d, d ≠ c → Function.update
        (fun d => if d ∈ gc then s.refno d - 1 else s.refno d) c 1 d =
          if d ∈ gc then s.refno d - 1 else s.refno d := fun d hd => Function.update_of_ne hd _ _
    refine ⟨fun d => ?_, fun d hd => ?_⟩
    · have hexact := h.exact d
      dsimp only
      rw [refs] at hexact ⊢
      by_cases hdc : d = c
      · -- nothing refers to the new connection yet
        subst hdc
        rw [h.zero d hfresh, if_neg hfresh] at hexact
        rw [Function.update_self, if_pos List.mem_cons_self]
        omega
      · rw [hother d hdc]
        by_cases hd : d ∈ gc
        · -- nothing but the listener referred to one that is collected
          obtain ⟨hacc, -, hone⟩ := hgc d hd
          rw [hone, if_pos hacc] at hexact
          rw [if_pos hd, hone, if_neg (by simp [hdc, hd])]
          omega
        · rw [if_neg hd, hexact]
          simp [hdc, hd]
    · obtain ⟨hdc, hkept⟩ := List.ne_and_not_mem_of_not_mem_cons hd
      dsimp only
      rw [hother d hdc]
      by_cases hd : d ∈ gc
      · rw [if_pos hd, (hgc d hd).2.2]
        rfl
      · rw [if_neg hd]
        refine h.zero d fun hacc => hkept ?_
        exact List.mem_filter.2 ⟨hacc, decide_eq_true hd⟩
  · cases hs

theorem Counted.step {a : RefSys.Act ι Ω} (h : Counted s) (hend : LeavesByEnd s a)
    (hs : s.step cfg a = some s') : Counted s' := by
  cases a with
  | accept c gc => exact h.accept hs
  | gotPdu c pdu succ => exact h.gotPdu hs
  | dispatch k w => exact h.dispatch hend hs
  | die c =>
    unfold RefSys.step at hs
    dsimp only at hs
    split at hs
    · cases hs
    · obtain rfl := Option.some.inj hs
      exact ⟨h.exact, h.zero⟩

/-- After a return from the branch for an old instance, the count of the
connection is one too high. -/
theorem Counted.leavesByEnd {a : RefSys.Act ι Ω} (h : Counted s)
    (hexact : ∀ s', s.step cfg a = some s' → Exact s') : LeavesByEnd s a := by
  cases a with
  | dispatch k w =>
    intro j hj c b hphase
    have hperm := perm_eraseIdx hj
    have hheld : j.held = c := by rw [Job.held, hphase]
    have hstep : s.step cfg (.dispatch k w) =
        some { s with sys := s.sys.send cfg j (s.sys.jobs.eraseIdx k) c b } := by
      simp only [RefSys.step, RefSys.dispatch, hj, Option.bind_some, hphase, RefSys.send]
    have hafter : s.refno c = refs s.accepted (s.sys.jobs.eraseIdx k) s.sys.conns c :=
      hexact _ hstep c
    have hbefore := h.exact c
    rw [refs_pick hperm, if_pos hheld] at hbefore
    omega
  | _ => trivial

/-- **Reference counts are exact, exactly where no dispatch leaves early.**
In a run from the start, with any connections accepted and collected, any
PDUs, and any order of the jobs, every `refno_` is the number of the
references there are in every state if and only if no dispatch returns
from the branch for an old instance of the server. -/
theorem exact_iff (acts : List (RefSys.Act ι Ω)) :
    Along (RefSys.step cfg) Exact .init acts ↔ Steps (RefSys.step cfg) LeavesByEnd .init acts :=
  along_iff_steps (fun _ h => h.exact) (fun _ _ _ h hend hs => h.step hend hs)
    (fun _ _ h hexact => h.leavesByEnd hexact) counted_init

/-- A request for another instance is dispatched to its end. -/
def oldInstanceRun : List (RefSys.Act Unit Unit) :=
  [.accept ⟨(), 0⟩ [], .gotPdu ⟨(), 0⟩ (List.replicate 24 1) true, .dispatch 0 (), .dispatch 0 ()]

/-- The connection is left with two references, of which the listener has
one. -/
theorem not_exact_oldInstanceRun :
    ¬ Along (RefSys.step oneClient) Exact .init oldInstanceRun := by
  intro h
  have hlast := h.last (show exec (RefSys.step oneClient) .init oldInstanceRun = some _ from rfl)
  have hcount : (2 : ℤ) = refs [⟨(), 0⟩] [] (fun _ => none) (⟨(), 0⟩ : Conn Unit) :=
    hlast ⟨(), 0⟩
  simp [refs] at hcount

end Rpc

end Yfs
