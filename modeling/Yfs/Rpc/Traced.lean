import Mathlib.Logic.Function.Basic
import Yfs.Rpc.Ledger

/-!
# Where messages and jobs come from

`Traced` holds of every run, whatever the clients do. A client's
connections are its own, and every message on its way to the server and
every job is a copy of a request that the owner of its connection packed.
The server keeps a connection under the nonce of its owner, and answers
on no other.
-/

namespace Yfs

open Common

namespace Rpc

variable {ι Ω : Type}

/-- The job is a copy of the request `q`. -/
structure JobOf (cfg : Config ι Ω) (log : List (Event ι Ω)) (j : Job ι) (q : Request) : Prop where
  called : .called j.conn.owner q ∈ log
  pdu : j.pdu = q.wire cfg j.conn.owner
  small : j.pdu.length ≤ maxPdu

/-- The connections a client uses are its own. -/
structure Own (i : ι) (c : Rpcc ι) : Prop where
  chan : ∀ d, c.chan = some d → d.owner = i ∧ d.no < c.nconn
  ch : ∀ ca ∈ c.calls, ∀ d, ca.ch = some d → d.owner = i ∧ d.no < c.nconn

/-- The invariant. -/
structure Traced (cfg : Config ι Ω) (s : Sys ι Ω) : Prop where
  caller : ∀ i, ∀ ca ∈ (s.clients i).calls, .called i ca.q ∈ s.log
  own : ∀ i, Own i (s.clients i)
  made : ∀ c, s.dead c = true → c.no < (s.clients c.owner).nconn
  toSrv : ∀ m ∈ s.toSrv, ∃ q, .called m.1.owner q ∈ s.log ∧ m.2 = q.wire cfg m.1.owner
  job : ∀ j ∈ s.jobs, ∃ q, JobOf cfg s.log j q
  conns : ∀ n c, s.conns n = some c → cfg.cltNonce c.owner = n
  sends : ∀ j ∈ s.jobs, ∀ c st b, j.phase = .send c st b →
    cfg.cltNonce c.owner = cfg.cltNonce j.conn.owner

variable {cfg : Config ι Ω}

/-- The log only grows. -/
theorem JobOf.mono {log log' : List (Event ι Ω)} {j : Job ι} {q : Request}
    (h : JobOf cfg log j q) (hsub : ∀ e ∈ log, e ∈ log') : JobOf cfg log' j q :=
  ⟨hsub _ h.called, h.pdu, h.small⟩

theorem JobOf.goto {log : List (Event ι Ω)} {j : Job ι} {q : Request} (h : JobOf cfg log j q)
    (p : Phase ι) : JobOf cfg log (j.goto p) q := ⟨h.called, h.pdu, h.small⟩

/-- The header of a job is the header of its request. -/
theorem JobOf.header_eq {log : List (Event ι Ω)} {j : Job ι} {q : Request}
    (h : JobOf cfg log j q) : Sys.header cfg j = q.hdr (cfg.cltNonce j.conn.owner) := by
  rw [Sys.header, h.pdu]
  exact (parse_wire q j.conn.owner (h.pdu ▸ h.small)).1

/-- Its header unpacks. -/
theorem JobOf.ok {log : List (Event ι Ω)} {j : Job ι} {q : Request} (h : JobOf cfg log j q) :
    (Sys.parse cfg j.pdu).1.ok = true := by
  have hpast := (parse_wire q j.conn.owner (h.pdu ▸ h.small)).2
  rw [h.pdu, hpast.ok]
  rfl

theorem JobOf.nonce {log : List (Event ι Ω)} {j : Job ι} {q : Request} (h : JobOf cfg log j q) :
    (Sys.header cfg j).cltNonce = cfg.cltNonce j.conn.owner := by
  rw [h.header_eq, Request.hdr]

theorem traced_init : Traced cfg (Sys.init : Sys ι Ω) where
  caller := by simp [Sys.init, Rpcc.new]
  own i := ⟨by simp [Sys.init, Rpcc.new], by simp [Sys.init, Rpcc.new]⟩
  made := by simp [Sys.init, Sys.dead]
  toSrv := by simp [Sys.init]
  job := by simp [Sys.init]
  conns := by simp [Sys.init]
  sends := by simp [Sys.init]

section

variable [DecidableEq ι] {s s' : Sys ι Ω} {a : Action ι Ω}

/-- The record only grows. -/
theorem log_mono (hm : Sys.Move cfg s a s') : ∀ e ∈ s.log, e ∈ s'.log := by
  intro e he
  rcases Sys.log_move hm with heq | ⟨d, heq, -⟩
  · exact heq ▸ he
  · exact heq ▸ List.mem_cons_of_mem d he

/-! ## Clients -/

/-- A caller is there only after its call. -/
theorem Traced.caller_step (h : Traced cfg s) (hm : Sys.Move cfg s a s') :
    ∀ i, ∀ ca ∈ (s'.clients i).calls, .called i ca.q ∈ s'.log := by
  have hmono := log_mono hm
  have hold : ∀ i, ∀ ca ∈ (s.clients i).calls, .called i ca.q ∈ s'.log :=
    fun i ca hca => hmono _ (h.caller i ca hca)
  have hupd : ∀ i c, (∀ ca ∈ c.calls, .called i ca.q ∈ s'.log) →
      ∀ k, ∀ ca ∈ ((s.setClient i c).clients k).calls, .called k ca.q ∈ s'.log := fun i c hc =>
    (Function.forall_update_iff s.clients fun k (c : Rpcc ι) =>
      ∀ ca ∈ c.calls, Event.called k ca.q ∈ s'.log).2 ⟨hc, fun k _ => hold k⟩
  -- a change of a call that keeps its request
  have hset : ∀ i x (f : Caller ι → Caller ι), (∀ d, (f d).q = d.q) →
      ∀ ca ∈ Sys.setCall (s.clients i).calls x f, .called i ca.q ∈ s'.log := by
    intro i x f hf ca hca
    obtain ⟨d, hd, rfl⟩ := mem_setCall.1 hca
    split
    · rw [hf]
      exact hold i d hd
    · exact hold i d hd
  cases hm with
  | call i bind proc ts args ret ca =>
    refine hupd i _ fun d hd => ?_
    rcases List.mem_cons.1 hd with rfl | hd
    · exact List.mem_cons_self
    · exact hold i d hd
  | transmit i xid connect ca r ch msgs => exact hupd i _ (hset i xid _ fun _ => rfl)
  | wake i xid => exact hupd i _ (hset i xid _ fun _ => rfl)
  | finish i xid => exact hupd i _ fun d hd => hold i d (List.mem_filter.1 hd).1
  | bound i => exact hupd i _ (hold i)
  | gotPdu k c b rest log xid => exact hupd c.owner _ (hset c.owner xid _ fun d => complete_q _ _ d)
  | _ => exact hold

omit [DecidableEq ι] in
/-- The connection `get_refconn` leaves is one of the client's. -/
theorem Own.getRefconn {i : ι} (h : Own i (s.clients i)) {connect : Bool}
    {r : Option (Conn ι) × ℕ} (hr : r = s.getRefconn i connect) :
    (s.clients i).nconn ≤ r.2 ∧ ∀ d, r.1 = some d → d.owner = i ∧ d.no < r.2 := by
  rw [hr, Sys.getRefconn]
  split
  · split
    · refine ⟨Nat.le_succ _, fun d hd => ?_⟩
      cases hd
      exact ⟨rfl, Nat.lt_succ_self _⟩
    · exact ⟨le_rfl, fun d hd => by cases hd⟩
  · exact ⟨le_rfl, h.chan⟩

omit [DecidableEq ι] in
/-- A call gets a connection of its own client. -/
theorem Own.transmit {i : ι} (h : Own i (s.clients i)) {connect : Bool} {xid : ℕ} {ca : Caller ι}
    {r : Option (Conn ι) × ℕ} {ch : Option (Conn ι)}
    (hca : Sys.findCall (s.clients i).calls xid = some ca)
    (hr : r = s.getRefconn i connect) (hch : ch = if r.1.isSome then r.1 else ca.ch) :
    ∀ d, ch = some d → d.owner = i ∧ d.no < r.2 := by
  obtain ⟨hle, hown⟩ := h.getRefconn hr
  intro d hd
  rw [hch] at hd
  split at hd
  · exact hown d hd
  · obtain ⟨ho, hn⟩ := h.ch ca (findCall_some hca).1 d hd
    exact ⟨ho, by omega⟩

omit [DecidableEq ι] in
/-- A change of calls that keeps their connections. -/
theorem Own.calls {i : ι} {c c' : Rpcc ι} (h : Own i c) (hchan : c'.chan = c.chan)
    (hnconn : c'.nconn = c.nconn)
    (hcalls : ∀ ca ∈ c'.calls, ca.ch = none ∨ ∃ d ∈ c.calls, d.ch = ca.ch) : Own i c' := by
  refine ⟨by rw [hchan, hnconn]; exact h.chan, fun ca hca d hd => ?_⟩
  rcases hcalls ca hca with hnone | ⟨e, he, hech⟩
  · rw [hnone] at hd
    cases hd
  · rw [hnconn]
    exact h.ch e he d (hech.trans hd)

omit [DecidableEq ι] in
/-- A change of a call keeps to its connection. -/
theorem Own.setCall {i : ι} {c c' : Rpcc ι} {x : ℕ} {f : Caller ι → Caller ι} (h : Own i c)
    (hchan : c'.chan = c.chan) (hnconn : c'.nconn = c.nconn)
    (hcalls : c'.calls = Sys.setCall c.calls x f) (hf : ∀ ca, (f ca).ch = ca.ch) : Own i c' := by
  refine h.calls hchan hnconn fun ca hca => .inr ?_
  rw [hcalls] at hca
  obtain ⟨d, hd, rfl⟩ := mem_setCall.1 hca
  refine ⟨d, hd, ?_⟩
  split
  · rw [hf]
  · rfl

/-- The clients use connections of their own. -/
theorem Traced.own_step (h : Traced cfg s) (hm : Sys.Move cfg s a s') :
    ∀ i, Own i (s'.clients i) := by
  have ho := h.own
  have hupd : ∀ i c, Own i c → ∀ k, Own k ((s.setClient i c).clients k) := fun i c hc =>
    (Function.forall_update_iff s.clients fun k c => Own k c).2 ⟨hc, fun k _ => ho k⟩
  cases hm with
  | call i bind proc ts args ret ca hxid hrep hdone hch =>
    refine hupd i _ ((ho i).calls rfl rfl fun d hd => ?_)
    rcases List.mem_cons.1 hd with rfl | hd
    · exact .inl hch
    · exact .inr ⟨d, hd, rfl⟩
  | transmit i xid connect ca r ch msgs hca htr hr hch hmsgs =>
    obtain ⟨hle, hown⟩ := (ho i).getRefconn hr
    refine hupd i _ ⟨hown, fun d hd e he => ?_⟩
    obtain ⟨d', hd', rfl⟩ := mem_setCall.1 hd
    split at he
    · exact (ho i).transmit hca hr hch e he
    · obtain ⟨hoe, hne⟩ := (ho i).ch d' hd' e he
      exact ⟨hoe, Nat.lt_of_lt_of_le hne hle⟩
  | wake i xid ca hca hdone hch => exact hupd i _ ((ho i).setCall rfl rfl rfl fun _ => rfl)
  | finish i xid ca binds hca htr =>
    exact hupd i _ ((ho i).calls rfl rfl fun d hd => .inr ⟨d, (List.mem_filter.1 hd).1, rfl⟩)
  | bound i k v binds => exact hupd i _ ⟨(ho i).chan, (ho i).ch⟩
  | gotPdu k c b rest log xid hperm hlen hok hxid hlog =>
    refine hupd c.owner _ ((ho c.owner).setCall rfl rfl rfl fun ca => ?_)
    unfold Sys.complete
    split <;> rfl
  | _ => exact ho

/-- The number of connections does not go down. -/
theorem Traced.nconn_le (h : Traced cfg s) (hm : Sys.Move cfg s a s') (i : ι) :
    (s.clients i).nconn ≤ (s'.clients i).nconn := by
  have hupd : ∀ k c, (s.clients k).nconn ≤ c.nconn →
      ∀ i, (s.clients i).nconn ≤ ((s.setClient k c).clients i).nconn := fun k c hc =>
    (Function.forall_update_iff s.clients fun i c => (s.clients i).nconn ≤ c.nconn).2
      ⟨hc, fun _ _ => le_rfl⟩
  cases hm with
  | call k => exact hupd k _ (by exact le_rfl) i
  | transmit k xid connect ca r ch msgs hca htr hr hch hmsgs =>
    exact hupd k _ ((h.own k).getRefconn hr).1 i
  | wake k => exact hupd k _ (by exact le_rfl) i
  | finish k => exact hupd k _ (by exact le_rfl) i
  | bound k => exact hupd k _ (by exact le_rfl) i
  | gotPdu k c => exact hupd c.owner _ (by exact le_rfl) i
  | _ => exact le_rfl

/-- A connection that died was made before. -/
theorem Traced.made_step (h : Traced cfg s) (hm : Sys.Move cfg s a s') :
    ∀ c, s'.dead c = true → c.no < (s'.clients c.owner).nconn := by
  intro c hc
  have hle := h.nconn_le hm c.owner
  suffices hs : s.dead c = true ∨ c.no < (s.clients c.owner).nconn by
    rcases hs with hs | hs
    · exact Nat.lt_of_lt_of_le (h.made c hs) hle
    · exact Nat.lt_of_lt_of_le hs hle
  cases hm with
  | net _ toSrv toClt cltDead srvDead hsrv hclt hdead hmade => exact hmade c hc
  | _ => exact .inl hc

/-! ## Messages and jobs -/

/-- What is on the wire is what a client packed. -/
theorem Traced.toSrv_step (h : Traced cfg s) (hm : Sys.Move cfg s a s') :
    ∀ m ∈ s'.toSrv, ∃ q, .called m.1.owner q ∈ s'.log ∧ m.2 = q.wire cfg m.1.owner := by
  have hmono := log_mono hm
  have hold : ∀ m ∈ s.toSrv, ∃ q, .called m.1.owner q ∈ s'.log ∧ m.2 = q.wire cfg m.1.owner := by
    intro m hmem
    obtain ⟨q, hq, hw⟩ := h.toSrv m hmem
    exact ⟨q, hmono _ hq, hw⟩
  cases hm with
  | transmit i xid connect ca r ch msgs hca htr hr hch hmsgs =>
    intro m hmem
    rcases List.mem_append.1 hmem with hmem | hmem
    · rw [hmsgs] at hmem
      cases hc : ch with
      | none =>
        rw [hc] at hmem
        cases hmem
      | some c =>
        rw [hc] at hmem
        simp only [Option.elim_some, Sys.onWire] at hmem
        split at hmem
        · cases hmem
        · obtain rfl := List.mem_singleton.1 hmem
          obtain ⟨rfl, -⟩ := (h.own i).transmit hca hr hch c hc
          exact ⟨ca.q, h.caller c.owner ca (findCall_some hca).1, rfl⟩
    · exact hold m hmem
  | recv k c b rest hperm hlen => exact fun m hmem => hold m ((mem_of_pick hperm).2 (.inr hmem))
  | net _ toSrv toClt cltDead srvDead hsrv => exact fun m hmem => hold m (hsrv m hmem)
  | _ => exact hold

/-- `conns_` has connections of the client it has them for. -/
theorem Traced.conns_step (h : Traced cfg s) (hm : Sys.Move cfg s a s') :
    ∀ n c, s'.conns n = some c → cfg.cltNonce c.owner = n := by
  cases hm with
  | accept k w j rest hpick hperm hphase hok hnonce =>
    obtain ⟨q, hq⟩ := h.job _ ((mem_of_pick hperm).2 (.inl rfl))
    intro n c hc
    dsimp only at hc
    split at hc
    · rename_i hn
      cases hc
      rw [hn, hq.nonce]
    · exact h.conns n c hc
  | _ => exact h.conns

omit [DecidableEq ι] in
/-- Where `check` takes a job: it ends, or goes on to the handler, or to
a send on its own connection. -/
theorem jobs_check (j : Job ι) (rest : List (Job ι)) :
    ∀ k ∈ (s.check cfg j rest).jobs, k ∈ rest ∨ ∃ p, k = j.goto p ∧
      ∀ c st b, p = .send c st b → c = j.conn := by
  intro k hk
  simp only [Sys.check] at hk
  split at hk
  · rcases List.mem_cons.1 hk with rfl | hk
    · exact .inr ⟨_, rfl, fun c st b hp => by cases hp⟩
    · exact .inl hk
  · exact .inl hk
  · rcases List.mem_cons.1 hk with rfl | hk
    · exact .inr ⟨_, rfl, fun c st b hp => by cases hp; rfl⟩
    · exact .inl hk
  · rcases List.mem_cons.1 hk with rfl | hk
    · exact .inr ⟨_, rfl, fun c st b hp => by cases hp; rfl⟩
    · exact .inl hk

/-- A job came from a call. -/
theorem Traced.job_step (h : Traced cfg s) (hm : Sys.Move cfg s a s') :
    ∀ j ∈ s'.jobs, ∃ q, JobOf cfg s'.log j q := by
  have hmono := log_mono hm
  have hold : ∀ j ∈ s.jobs, ∃ q, JobOf cfg s'.log j q := by
    intro j hj
    obtain ⟨q, hq⟩ := h.job j hj
    exact ⟨q, hq.mono hmono⟩
  have hrest : ∀ {j : Job ι} {rest : List (Job ι)}, s.jobs.Perm (j :: rest) →
      ∀ k ∈ rest, ∃ q, JobOf cfg s'.log k q :=
    fun hperm k hk => hold k ((mem_of_pick hperm).2 (.inr hk))
  have hgoto : ∀ {j : Job ι} {rest : List (Job ι)} (p : Phase ι), s.jobs.Perm (j :: rest) →
      ∃ q, JobOf cfg s'.log (j.goto p) q := by
    intro j rest p hperm
    obtain ⟨q, hq⟩ := hold j ((mem_of_pick hperm).2 (.inl rfl))
    exact ⟨q, hq.goto p⟩
  have hcons : ∀ {j : Job ι} {rest : List (Job ι)} {p : Phase ι}, s.jobs.Perm (j :: rest) →
      ∀ k ∈ j.goto p :: rest, ∃ q, JobOf cfg s'.log k q := by
    intro j rest p hperm k hk
    rcases List.mem_cons.1 hk with rfl | hk
    · exact hgoto p hperm
    · exact hrest hperm k hk
  cases hm with
  | recv k c b rest hperm hlen =>
    intro j hj
    rcases List.mem_cons.1 hj with rfl | hj
    · obtain ⟨q, hq, hb⟩ := h.toSrv (c, b) ((mem_of_pick hperm).2 (.inl rfl))
      exact ⟨q, hq, hb, hlen⟩
    · exact hold j hj
  | reject k w j rest hpick hperm => exact hrest hperm
  | oldsrv k w j rest hpick hperm => exact hcons hperm
  | accept k w j rest hpick hperm => exact hcons hperm
  | anonymous k w j rest hpick hperm => exact hcons hperm
  | check k w j rest hpick hperm hphase =>
    intro d hd
    rcases jobs_check j rest d hd with hd | ⟨p, rfl, -⟩
    · exact hrest hperm d hd
    · exact hgoto p hperm
  | handler k w j rest f b hpick hperm => exact hcons hperm
  | addReply k w j rest b hpick hperm => exact hcons hperm
  | choose k w j rest b c hpick hperm => exact hcons hperm
  | send k w j rest c st b hpick hperm => exact hrest hperm
  | _ => exact hold

theorem Traced.sends_step (h : Traced cfg s) (hm : Sys.Move cfg s a s') :
    ∀ j ∈ s'.jobs, ∀ c st b, j.phase = .send c st b →
      cfg.cltNonce c.owner = cfg.cltNonce j.conn.owner := by
  have hrest : ∀ {j : Job ι} {rest : List (Job ι)}, s.jobs.Perm (j :: rest) →
      ∀ k ∈ rest, ∀ c st b, k.phase = .send c st b →
        cfg.cltNonce c.owner = cfg.cltNonce k.conn.owner :=
    fun hperm k hk => h.sends k ((mem_of_pick hperm).2 (.inr hk))
  have hcons : ∀ {j : Job ι} {rest : List (Job ι)} {p : Phase ι}, s.jobs.Perm (j :: rest) →
      (∀ c st b, p = .send c st b → cfg.cltNonce c.owner = cfg.cltNonce j.conn.owner) →
      ∀ k ∈ j.goto p :: rest, ∀ c st b, k.phase = .send c st b →
        cfg.cltNonce c.owner = cfg.cltNonce k.conn.owner := by
    intro j rest p hperm hp k hk
    rcases List.mem_cons.1 hk with rfl | hk
    · exact hp
    · exact hrest hperm k hk
  cases hm with
  | recv k c b rest hperm hlen =>
    intro j hj c st b hp
    rcases List.mem_cons.1 hj with rfl | hj
    · cases hp
    · exact h.sends j hj c st b hp
  | reject k w j rest hpick hperm => exact hrest hperm
  | oldsrv k w j rest hpick hperm =>
    refine hcons hperm fun c st b hp => ?_
    cases hp
    rfl
  | accept k w j rest hpick hperm => exact hcons hperm fun c st b hp => by cases hp
  | anonymous k w j rest hpick hperm => exact hcons hperm fun c st b hp => by cases hp
  | check k w j rest hpick hperm hphase =>
    intro d hd c st b hp
    rcases jobs_check j rest d hd with hd | ⟨p, rfl, hc⟩
    · exact hrest hperm d hd c st b hp
    · rw [hc c st b hp]
      rfl
  | handler k w j rest f b hpick hperm =>
    refine hcons hperm fun c st b hp => ?_
    split at hp <;> cases hp
  | addReply k w j rest b hpick hperm => exact hcons hperm fun c st b hp => by cases hp
  | choose k w j rest b c hpick hperm hphase hc =>
    refine hcons hperm fun d st b hp => ?_
    cases hp
    rcases hc with rfl | hc
    · rfl
    · obtain ⟨q, hq⟩ := h.job j ((mem_of_pick hperm).2 (.inl rfl))
      rw [h.conns _ c hc, hq.nonce]
  | send k w j rest c st b hpick hperm => exact hrest hperm
  | _ => exact h.sends

/-- **One step.** -/
theorem Traced.step (h : Traced cfg s) (hm : Sys.Move cfg s a s') : Traced cfg s' where
  caller := h.caller_step hm
  own := h.own_step hm
  made := h.made_step hm
  toSrv := h.toSrv_step hm
  job := h.job_step hm
  conns := h.conns_step hm
  sends := h.sends_step hm

end

end Rpc

end Yfs
