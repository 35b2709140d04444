import Yfs.Rpc.Traced

/-!
# What holds of every run of a client

`Based` is the invariant of a client that has a nonce of its own and
calls left. Its books are in order, and every job of it and every message
on its way to it carries, or will carry, a reply that belongs to the
request. A reply belongs to a call if the handler of its procedure made it
from the request of that call, or if it is a failure and says so
(`Origin`).
-/

namespace Yfs

open Common

namespace Rpc

variable {ι Ω : Type}

/-- Where a reply `b` for the call `x` of client `i` comes from. -/
inductive Origin (cfg : Config ι Ω) (log : List (Event ι Ω)) (i : ι) (x : ℕ) (b : List UInt8) : Prop
  | executed (q : Request) (w : Ω) (f : Handler Ω) (hq : .called i q ∈ log) (hx : q.xid = x)
      (hlen : (q.wire cfg i).length ≤ maxPdu) (hf : cfg.procs q.proc.toInt32 = some f)
      (hret : ¬ ((f.fn w (Sys.parse cfg (q.wire cfg i)).1 (.new cfg.mem)).ret < 0 ∧
        (f.fn w (Sys.parse cfg (q.wire cfg i)).1 (.new cfg.mem)).ret ≠ unmarshalArgsFailure))
      (hexec : .executed (q.wire cfg i) w
        (f.fn w (Sys.parse cfg (q.wire cfg i)).1 (.new cfg.mem)).ret b ∈ log)
      (hb : b = ((f.fn w (Sys.parse cfg (q.wire cfg i)).1 (.new cfg.mem)).rep.packReplyHeader
        ⟨(UInt32.ofNat x).toInt32,
          (f.fn w (Sys.parse cfg (q.wire cfg i)).1 (.new cfg.mem)).ret⟩).str)
  | failure (q : Request) (ret : Int32) (hq : .called i q ∈ log) (hx : q.xid = x)
      (hneg : ret = atmostonceFailure ∨ ret = oldsrvFailure)
      (hb : b = failureReply cfg.mem (q.hdr (cfg.cltNonce i)) ret)

theorem Origin.mono {cfg : Config ι Ω} {log log' : List (Event ι Ω)} {i : ι} {x : ℕ}
    {b : List UInt8} (h : Origin cfg log i x b) (hsub : ∀ e ∈ log, e ∈ log') :
    Origin cfg log' i x b := by
  cases h with
  | executed q w f hq hx hlen hf hret hexec hb =>
    exact .executed q w f (hsub _ hq) hx hlen hf hret (hsub _ hexec) hb
  | failure q ret hq hx hneg hb => exact .failure q ret (hsub _ hq) hx hneg hb

theorem rpcHeaderSz_le_fn (f : Handler Ω) (w : Ω) (u : Unmarshall) (mem : ℕ → UInt8) :
    rpcHeaderSz ≤ (f.fn w u (.new mem)).rep.ind := by
  unfold Handler.fn
  dsimp only
  split
  · exact le_rfl
  · rw [(Marshall.appends_put _ f.ret _).ind]
    exact Nat.le_add_right _ _

/-- Every reply is a header packed over something at least as long. -/
theorem Origin.exists_packed {cfg : Config ι Ω} {log : List (Event ι Ω)} {i : ι} {x : ℕ}
    {b : List UInt8} (h : Origin cfg log i x b) :
    ∃ (m : Marshall) (ret : Int32), rpcHeaderSz ≤ m.ind ∧
      b = (m.packReplyHeader ⟨(UInt32.ofNat x).toInt32, ret⟩).str := by
  cases h with
  | executed q w f hq hx hlen hf hret hexec hb =>
    exact ⟨_, _, rpcHeaderSz_le_fn f w _ cfg.mem, hb⟩
  | failure q ret hq hx hneg hb =>
    refine ⟨Marshall.new cfg.mem, ret, le_rfl, ?_⟩
    rw [hb, failureReply, Request.hdr, hx]

/-- The xid in a reply is that of the call it belongs to. -/
theorem Origin.xid_eq {cfg : Config ι Ω} {log : List (Event ι Ω)} {i : ι} {x : ℕ}
    {b : List UInt8} (h : Origin cfg log i x b) (hlen : (framed b).length ≤ maxPdu)
    (hx : x < 2 ^ 32) :
    (Unmarshall.ofBytes cfg.mem (framed b)).unpackReplyHeader.2.xid.toUInt32.toNat = x := by
  obtain ⟨m, ret, hind, rfl⟩ := h.exists_packed
  rw [(unpackReplyHeader_framed cfg.mem m _ hind hlen).1, UInt32.toUInt32_toInt32]
  exact UInt32.toNat_ofNat_of_lt hx

/-- What a job in a given phase carries. -/
def PhaseOk (cfg : Config ι Ω) (log : List (Event ι Ω)) (i : ι) (x : ℕ) : Phase ι → Prop
  | .addReply b => Origin cfg log i x b
  | .choose b => Origin cfg log i x b
  | .send _ _ b => Origin cfg log i x b
  | _ => True

/-- The client `i` has a nonce, and shares it with no other. -/
structure Distinct (cfg : Config ι Ω) (i : ι) : Prop where
  ne_zero : cfg.cltNonce i ≠ 0
  eq_of_eq : ∀ k, cfg.cltNonce k = cfg.cltNonce i → k = i

/-- The client `i` has calls left. -/
def FewCalls (i : ι) (s : Sys ι Ω) : Action ι Ω → Prop
  | .call k _ _ _ _ _ => k = i → (s.clients i).xid < 2 ^ 32 - 1
  | _ => True

/-- The invariant. -/
structure Based (cfg : Config ι Ω) (i : ι) (s : Sys ι Ω) : Prop extends Traced cfg s where
  distinct : Distinct cfg i
  ledger : Ledger i (s.clients i) s.log
  work : ∀ j ∈ s.jobs, j.conn.owner = i →
    ∃ q, JobOf cfg s.log j q ∧ PhaseOk cfg s.log i q.xid j.phase
  window : ∀ e ∈ s.replyWindow (cfg.cltNonce i), e.cbPresent = true →
    Origin cfg s.log i e.xid e.buf
  toClt : ∀ m ∈ s.toClt, m.1.owner = i → ∃ q b, .called i q ∈ s.log ∧ m.2 = framed b ∧
    Origin cfg s.log i q.xid b

/-- A job of client `i`, its request, and the numbers in the header. -/
structure Copy (cfg : Config ι Ω) (s : Sys ι Ω) (i : ι) (j : Job ι) (q : Request) : Prop
    extends JobOf cfg s.log j q where
  owner : j.conn.owner = i
  phase : PhaseOk cfg s.log i q.xid j.phase
  hdr : Sys.header cfg j = q.hdr (cfg.cltNonce i)
  xid_toNat : (Sys.header cfg j).xid.toUInt32.toNat = q.xid
  xidRep_toNat : (Sys.header cfg j).xidRep.toUInt32.toNat = q.xidRep
  lt : q.xidRep < q.xid

variable {cfg : Config ι Ω} {i : ι}

theorem PhaseOk.mono {log log' : List (Event ι Ω)} {x : ℕ} {p : Phase ι}
    (h : PhaseOk cfg log i x p) (hsub : ∀ e ∈ log, e ∈ log') : PhaseOk cfg log' i x p := by
  cases p with
  | addReply b => exact Origin.mono h hsub
  | choose b => exact Origin.mono h hsub
  | send c st b => exact Origin.mono h hsub
  | queued => trivial
  | check => trivial
  | handler => trivial

/-- The unsigned xids in a header are the ones packed. -/
theorem toNat_toUInt32_ofNat {x : ℕ} (h : x < 2 ^ 32) :
    (UInt32.ofNat x).toInt32.toUInt32.toNat = x := by
  rw [UInt32.toUInt32_toInt32]
  exact UInt32.toNat_ofNat_of_lt h

theorem based_init (hd : Distinct cfg i) : Based cfg i (Sys.init : Sys ι Ω) where
  toTraced := traced_init
  distinct := hd
  ledger := ledger_new i
  work := by simp [Sys.init]
  window := by simp [Sys.init]
  toClt := by simp [Sys.init]

section

variable {s s' : Sys ι Ω} {a : Action ι Ω}

/-- The numbers in a header are those of the call. -/
theorem Based.xid_hdr (h : Based cfg i s) {q : Request} (hq : .called i q ∈ s.log) (n : UInt32) :
    (q.hdr n).xid.toUInt32.toNat = q.xid := by
  have hlt := h.ledger.xid_lt
  have hx := (h.ledger.called_lt q hq).2
  exact toNat_toUInt32_ofNat (by omega)

theorem Based.xidRep_hdr (h : Based cfg i s) {q : Request} (hq : .called i q ∈ s.log) (n : UInt32) :
    (q.hdr n).xidRep.toUInt32.toNat = q.xidRep := by
  have hlt := h.ledger.xid_lt
  have hx := (h.ledger.called_lt q hq).2
  have hrep := (h.ledger.acks q hq).1
  exact toNat_toUInt32_ofNat (by omega)

theorem Based.copy (h : Based cfg i s) {j : Job ι} (hj : j ∈ s.jobs) (ho : j.conn.owner = i) :
    ∃ q, Copy cfg s i j q := by
  obtain ⟨q, hq, hp⟩ := h.work j hj ho
  have hcalled : .called i q ∈ s.log := ho ▸ hq.called
  have hhdr : Sys.header cfg j = q.hdr (cfg.cltNonce i) := ho ▸ hq.header_eq
  exact ⟨q, hq, ho, hp, hhdr, hhdr ▸ h.xid_hdr hcalled _, hhdr ▸ h.xidRep_hdr hcalled _,
    (h.ledger.acks q hcalled).1⟩

/-- A job with the nonce of `i` is a job of `i`. -/
theorem Based.owner_of_nonce (h : Based cfg i s) {j : Job ι} (hj : j ∈ s.jobs)
    (hn : (Sys.header cfg j).cltNonce = cfg.cltNonce i) : j.conn.owner = i := by
  obtain ⟨q, hq⟩ := h.job j hj
  exact h.distinct.eq_of_eq _ (hq.nonce.symm.trans hn)

/-- And the other way round. -/
theorem Based.nonce_iff (h : Based cfg i s) {j : Job ι} (hj : j ∈ s.jobs) :
    (Sys.header cfg j).cltNonce = cfg.cltNonce i ↔ j.conn.owner = i := by
  refine ⟨h.owner_of_nonce hj, fun ho => ?_⟩
  obtain ⟨q, hq⟩ := h.job j hj
  exact ho ▸ hq.nonce

theorem Copy.called_mem {j : Job ι} {q : Request} (h : Copy cfg s i j q) : .called i q ∈ s.log :=
  h.owner ▸ h.called

/-- The check of a request of client `i`. -/
theorem Copy.classified {j : Job ι} {q : Request} (h : Copy cfg s i j q) (rest : List (Job ι)) :
    ∃ r, Classified (s.replyWindow (cfg.cltNonce i)) q.xid q.xidRep r ∧
      s.check cfg j rest = { s with
        replyWindow := fun n => if n = cfg.cltNonce i then r.1 else s.replyWindow n
        jobs := match r.2.1 with
          | .new => j.goto .handler :: rest
          | .inprogress => rest
          | .done => j.goto (.send j.conn (some .done) r.2.2) :: rest
          | .forgotten => j.goto (.send j.conn (some .forgotten)
              (failureReply cfg.mem (Sys.header cfg j) atmostonceFailure)) :: rest
        log := .classified (q.hdr (cfg.cltNonce i)) r.2.1 :: s.log } := by
  have hn : (Sys.header cfg j).cltNonce = cfg.cltNonce i := by rw [h.hdr, Request.hdr]
  rw [← h.hdr, ← hn, ← h.xid_toNat, ← h.xidRep_toNat]
  exact Sys.classified_check cfg s j rest

variable [DecidableEq ι]

/-! ## The books -/

/-- A step of client `k`, seen by client `i`. -/
theorem ledger_setClient {k : ι} {c : Rpcc ι} {log : List (Event ι Ω)}
    (hself : k = i → Ledger i c log) (hother : k ≠ i → Ledger i (s.clients i) log) :
    Ledger i ((s.setClient k c).clients i) log := by
  by_cases hk : k = i
  · subst hk
    simp only [Sys.setClient, Function.update_self]
    exact hself rfl
  · simp only [Sys.setClient, Function.update_of_ne (Ne.symm hk)]
    exact hother hk

/-- **The books stay in order.** -/
theorem Based.ledger_step (h : Based cfg i s) (hfew : FewCalls i s a) (hm : Sys.Move cfg s a s') :
    Ledger i (s'.clients i) s'.log := by
  have hl := h.ledger
  cases hm with
  | call k bind proc ts args ret ca hxid hrep hdone =>
    refine ledger_setClient ?_ fun hk => hl.foreign hk
    rintro rfl
    exact hl.call (hfew rfl) hxid hrep hdone
  | transmit k xid connect ca r ch msgs hca htr hr hch hmsgs =>
    refine ledger_setClient ?_ fun _ => hl
    rintro rfl
    exact hl.calls_congr rfl rfl (map_setCall (fun _ => rfl) fun _ => rfl)
  | wake k xid ca hca hdone hch =>
    refine ledger_setClient ?_ fun _ => hl
    rintro rfl
    exact hl.calls_congr rfl rfl (map_setCall (fun _ => rfl) fun _ => rfl)
  | finish k xid ca binds hca htr =>
    refine ledger_setClient ?_ fun hk => hl.foreign hk
    rintro rfl
    exact ledger_finish hl hca
  | bound k n v binds =>
    refine ledger_setClient ?_ fun _ => hl
    rintro rfl
    exact hl.calls_congr rfl rfl rfl
  | gotPdu k c b rest log xid hperm hlen hok hxid hlog =>
    refine ledger_setClient (fun hc => ?_) fun hc => ?_
    · obtain ⟨q, b', hq, hb, horg⟩ := h.toClt (c, b) ((mem_of_pick hperm).2 (.inl rfl)) hc
      subst hc
      dsimp only at hb
      subst hb
      have hqx := (hl.called_lt q hq).2
      have hlt := hl.xid_lt
      rw [horg.xid_eq hlen (by omega)] at hxid
      exact ledger_gotPdu hl ⟨q, hq, hxid.symm⟩ hlog
    · rcases Sys.log_gotPdu hlog with heq | heq
      · exact heq ▸ hl
      · exact heq ▸ hl.foreign hc
  | check => exact hl.foreign trivial
  | handler => exact hl.foreign trivial
  | send k w j rest c st b hpick hperm hphase =>
    rcases Sys.log_send cfg s j rest c b with heq | heq
    · exact heq ▸ hl
    · exact heq ▸ hl.foreign trivial
  | _ => exact hl

/-! ## Replies -/

omit [DecidableEq ι] in
/-- What the window hands out, and keeps, belongs to the call it is
kept for. -/
theorem Based.window_check (h : Based cfg i s) {x xr : ℕ} {r : List ReplyT × RpcState × List UInt8}
    (hc : Classified (s.replyWindow (cfg.cltNonce i)) x xr r) :
    (∀ e ∈ r.1, e.cbPresent = true → Origin cfg s.log i e.xid e.buf) ∧
      (r.2.1 = .done → Origin cfg s.log i x r.2.2) := by
  have hw := h.window
  cases hc with
  | new hno =>
    refine ⟨fun e he hp => ?_, fun hd => by cases hd⟩
    rcases List.mem_append.1 he with he | he
    · exact hw e (List.mem_filter.1 he).1 hp
    · rw [List.mem_singleton.1 he] at hp
      cases hp
  | inprogress e he hx hp =>
    exact ⟨fun e he => hw e (List.mem_filter.1 he).1, fun hd => by cases hd⟩
  | done e he hx hp =>
    exact ⟨fun e he => hw e (List.mem_filter.1 he).1, fun _ => hx ▸ hw e he hp⟩
  | forgotten hle =>
    exact ⟨fun e he => hw e (List.mem_filter.1 he).1, fun hd => by cases hd⟩

theorem Based.window_step (h : Based cfg i s) (hm : Sys.Move cfg s a s') :
    ∀ e ∈ s'.replyWindow (cfg.cltNonce i), e.cbPresent = true →
      Origin cfg s'.log i e.xid e.buf := by
  have hmono := log_mono hm
  suffices hs : ∀ e ∈ s'.replyWindow (cfg.cltNonce i), e.cbPresent = true →
      Origin cfg s.log i e.xid e.buf from fun e he hp => (hs e he hp).mono hmono
  cases hm with
  | check k w j rest hpick hperm hphase =>
    have hj : j ∈ s.jobs := (mem_of_pick hperm).2 (.inl rfl)
    by_cases ho : j.conn.owner = i
    · obtain ⟨q, hq⟩ := h.copy hj ho
      obtain ⟨r, hc, heq⟩ := hq.classified rest
      rw [heq]
      dsimp only
      rw [if_pos rfl]
      exact (h.window_check hc).1
    · rw [Sys.check_replyWindow_of_ne fun hn => ho (h.owner_of_nonce hj hn)]
      exact h.window
  | addReply k w j rest b hpick hperm hphase =>
    have hj : j ∈ s.jobs := (mem_of_pick hperm).2 (.inl rfl)
    by_cases ho : j.conn.owner = i
    · obtain ⟨q, hq⟩ := h.copy hj ho
      have horg : Origin cfg s.log i q.xid b := by
        have := hq.phase
        rwa [hphase] at this
      rw [Sys.storeReply_replyWindow ((h.nonce_iff hj).2 ho), hq.xid_toNat]
      intro e he hp
      obtain ⟨d, hd, rfl⟩ := List.mem_map.1 he
      by_cases hdx : d.xid = q.xid
      · rw [if_pos hdx]
        exact hdx ▸ horg
      · rw [if_neg hdx] at hp ⊢
        exact h.window d hd hp
    · rw [Sys.storeReply_replyWindow_of_ne fun hn => ho (h.owner_of_nonce hj hn)]
      exact h.window
  | _ => exact h.window

omit [DecidableEq ι] in
theorem Copy.xid {j : Job ι} {q : Request} (h : Copy cfg s i j q) :
    (Sys.header cfg j).xid = (UInt32.ofNat q.xid).toInt32 := by rw [h.hdr, Request.hdr]

omit [DecidableEq ι] in
/-- What the handler returns belongs to the call. -/
theorem Copy.origin_executed {j : Job ι} {q : Request} (h : Copy cfg s i j q) {w : Ω}
    {f : Handler Ω} {b : List UInt8} {log : List (Event ι Ω)} (hsub : ∀ e ∈ s.log, e ∈ log)
    (hf : cfg.procs (Sys.header cfg j).proc = some f)
    (hret : ¬ ((f.fn w (Sys.parse cfg j.pdu).1 (.new cfg.mem)).ret < 0 ∧
      (f.fn w (Sys.parse cfg j.pdu).1 (.new cfg.mem)).ret ≠ unmarshalArgsFailure))
    (hb : b = ((f.fn w (Sys.parse cfg j.pdu).1 (.new cfg.mem)).rep.packReplyHeader
      ⟨(Sys.header cfg j).xid, (f.fn w (Sys.parse cfg j.pdu).1 (.new cfg.mem)).ret⟩).str)
    (hexec : .executed j.pdu w (f.fn w (Sys.parse cfg j.pdu).1 (.new cfg.mem)).ret b ∈ log) :
    Origin cfg log i q.xid b := by
  have hproc : (Sys.header cfg j).proc = q.proc.toInt32 := by rw [h.hdr, Request.hdr]
  have hpdu : j.pdu = q.wire cfg i := h.owner ▸ h.pdu
  have hsmall := h.small
  rw [hproc] at hf
  rw [h.xid] at hb
  rw [hpdu] at hret hb hexec hsmall
  exact .executed q w f (hsub _ h.called_mem) rfl hsmall hf hret hexec hb

omit [DecidableEq ι] in
/-- What `dispatch` says when it does not run the handler. -/
theorem Copy.origin_failure {j : Job ι} {q : Request} (h : Copy cfg s i j q) {ret : Int32}
    {log : List (Event ι Ω)} (hsub : ∀ e ∈ s.log, e ∈ log)
    (hneg : ret = atmostonceFailure ∨ ret = oldsrvFailure) :
    Origin cfg log i q.xid (failureReply cfg.mem (Sys.header cfg j) ret) :=
  .failure q ret (hsub _ h.called_mem) rfl hneg (by rw [h.hdr])

theorem Based.work_step (h : Based cfg i s) (hm : Sys.Move cfg s a s') :
    ∀ j ∈ s'.jobs, j.conn.owner = i →
      ∃ q, JobOf cfg s'.log j q ∧ PhaseOk cfg s'.log i q.xid j.phase := by
  have hmono := log_mono hm
  have hold : ∀ j ∈ s.jobs, j.conn.owner = i →
      ∃ q, JobOf cfg s'.log j q ∧ PhaseOk cfg s'.log i q.xid j.phase := by
    intro j hj ho
    obtain ⟨q, hq, hp⟩ := h.work j hj ho
    exact ⟨q, hq.mono hmono, hp.mono hmono⟩
  have hrest : ∀ {j : Job ι} {rest : List (Job ι)}, s.jobs.Perm (j :: rest) →
      ∀ k ∈ rest, k.conn.owner = i →
        ∃ q, JobOf cfg s'.log k q ∧ PhaseOk cfg s'.log i q.xid k.phase :=
    fun hperm k hk => hold k ((mem_of_pick hperm).2 (.inr hk))
  -- a step of the job `j`, which goes to the phase `p`
  have hgoto : ∀ {j : Job ι} {rest : List (Job ι)} {p : Phase ι}, s.jobs.Perm (j :: rest) →
      (∀ q, Copy cfg s i j q → PhaseOk cfg s'.log i q.xid p) →
      ∀ k ∈ j.goto p :: rest, k.conn.owner = i →
        ∃ q, JobOf cfg s'.log k q ∧ PhaseOk cfg s'.log i q.xid k.phase := by
    intro j rest p hperm hp k hk ho
    rcases List.mem_cons.1 hk with rfl | hk
    · obtain ⟨q, hq⟩ := h.copy ((mem_of_pick hperm).2 (.inl rfl)) ho
      exact ⟨q, (hq.toJobOf.mono hmono).goto p, hp q hq⟩
    · exact hrest hperm k hk ho
  cases hm with
  | recv k c b rest hperm hlen =>
    intro j hj ho
    rcases List.mem_cons.1 hj with rfl | hj
    · obtain ⟨q, hq, hb⟩ := h.toSrv (c, b) ((mem_of_pick hperm).2 (.inl rfl))
      exact ⟨q, ⟨hq, hb, hlen⟩, trivial⟩
    · exact hold j hj ho
  | reject k w j rest hpick hperm => exact hrest hperm
  | oldsrv k w j rest hpick hperm =>
    exact hgoto hperm fun q hq => hq.origin_failure hmono (.inr rfl)
  | accept k w j rest hpick hperm => exact hgoto hperm fun _ _ => trivial
  | anonymous k w j rest hpick hperm => exact hgoto hperm fun _ _ => trivial
  | check k w j rest hpick hperm hphase =>
    intro d hd ho
    have hjob : d ∈ rest ∨ j.conn.owner = i := by
      rcases jobs_check j rest d hd with hd | ⟨p, rfl, -⟩
      · exact .inl hd
      · exact .inr ho
    rcases hjob with hd | hj
    · exact hrest hperm d hd ho
    · obtain ⟨q, hq⟩ := h.copy ((mem_of_pick hperm).2 (.inl rfl)) hj
      obtain ⟨r, hc, heq⟩ := hq.classified rest
      have hdone := (h.window_check hc).2
      rw [heq] at hd
      dsimp only at hd
      split at hd
      · exact hgoto (p := .handler) hperm (fun _ _ => trivial) d hd ho
      · exact hrest hperm d hd ho
      · rename_i hst
        rcases List.mem_cons.1 hd with rfl | hd
        · exact ⟨q, (hq.toJobOf.mono hmono).goto _, (hdone hst).mono hmono⟩
        · exact hrest hperm d hd ho
      · rcases List.mem_cons.1 hd with rfl | hd
        · exact ⟨q, (hq.toJobOf.mono hmono).goto _, hq.origin_failure hmono (.inl rfl)⟩
        · exact hrest hperm d hd ho
  | handler k w j rest f b hpick hperm hphase hf hret hb =>
    refine hgoto hperm fun q hq => ?_
    have horg := hq.origin_executed hmono hf hret hb List.mem_cons_self
    split <;> exact horg
  | addReply k w j rest b hpick hperm hphase =>
    refine hgoto hperm fun q hq => ?_
    have := hq.phase
    rwa [hphase] at this
  | choose k w j rest b c hpick hperm hphase hc =>
    refine hgoto hperm fun q hq => ?_
    have := hq.phase
    rwa [hphase] at this
  | send k w j rest c st b hpick hperm => exact hrest hperm
  | _ => exact hold

theorem Based.toClt_step (h : Based cfg i s) (hm : Sys.Move cfg s a s') :
    ∀ m ∈ s'.toClt, m.1.owner = i → ∃ q b, .called i q ∈ s'.log ∧ m.2 = framed b ∧
      Origin cfg s'.log i q.xid b := by
  have hmono := log_mono hm
  suffices hs : ∀ m ∈ s'.toClt, m.1.owner = i → ∃ q b, .called i q ∈ s.log ∧ m.2 = framed b ∧
      Origin cfg s.log i q.xid b by
    intro m hmem ho
    obtain ⟨q, b, hq, hb, horg⟩ := hs m hmem ho
    exact ⟨q, b, hmono _ hq, hb, horg.mono hmono⟩
  cases hm with
  | gotPdu k c b rest log xid hperm =>
    exact fun m hmem => h.toClt m ((mem_of_pick hperm).2 (.inr hmem))
  | send k w j rest c st b hpick hperm hphase =>
    intro m hmem ho
    rcases List.mem_append.1 hmem with hmem | hmem
    · simp only [Sys.onWire] at hmem
      split at hmem
      · cases hmem
      · obtain rfl := List.mem_singleton.1 hmem
        -- only a job of `i` sends on a connection of `i`
        have hj : j ∈ s.jobs := (mem_of_pick hperm).2 (.inl rfl)
        have hjo : j.conn.owner = i :=
          h.distinct.eq_of_eq _ ((h.sends j hj c st b hphase).symm.trans (congrArg _ ho))
        obtain ⟨q, hq⟩ := h.copy hj hjo
        have horg := hq.phase
        rw [hphase] at horg
        exact ⟨q, b, hq.called_mem, rfl, horg⟩
    · exact h.toClt m hmem ho
  | net _ toSrv toClt cltDead srvDead hsrv hclt => exact fun m hmem => h.toClt m (hclt m hmem)
  | _ => exact h.toClt

/-- **One step.** -/
theorem Based.step (h : Based cfg i s) (hfew : FewCalls i s a) (hm : Sys.Move cfg s a s') :
    Based cfg i s' where
  toTraced := h.toTraced.step hm
  distinct := h.distinct
  ledger := h.ledger_step hfew hm
  work := h.work_step hm
  window := h.window_step hm
  toClt := h.toClt_step hm

/-! ## Runs -/

/-- The action is a call of client `i`. -/
def Action.isCallOf (i : ι) : Action ι Ω → Bool
  | .call k _ _ _ _ _ => decide (k = i)
  | _ => false

/-- What is assumed of the client `i` in a run: a nonce of its own, and
fewer than `2 ^ 32 - 1` calls. -/
structure Regular (cfg : Config ι Ω) (i : ι) (acts : List (Action ι Ω)) : Prop
    extends Distinct cfg i where
  few : acts.countP (Action.isCallOf i) < 2 ^ 32 - 1

theorem xid_le (hm : Sys.Move cfg s a s') (i : ι) :
    (s'.clients i).xid ≤ (s.clients i).xid + if a.isCallOf i then 1 else 0 := by
  have hupd : ∀ k c, c.xid ≤ (s.clients k).xid →
      ∀ i, ((s.setClient k c).clients i).xid ≤ (s.clients i).xid := fun k c hc =>
    (Function.forall_update_iff s.clients fun i (c : Rpcc ι) => c.xid ≤ (s.clients i).xid).2
      ⟨hc, fun _ _ => le_rfl⟩
  cases hm with
  | call k bind proc ts args ret ca =>
    by_cases hk : k = i
    · subst hk
      simp only [Sys.setClient, Function.update_self, Action.isCallOf, decide_true, if_true]
      exact Nat.mod_le _ _
    · simp only [Sys.setClient, Function.update_of_ne (Ne.symm hk)]
      exact Nat.le_add_right _ _
  | transmit k => exact Nat.le_add_right_of_le (hupd k _ (by exact le_rfl) i)
  | wake k => exact Nat.le_add_right_of_le (hupd k _ (by exact le_rfl) i)
  | finish k => exact Nat.le_add_right_of_le (hupd k _ (by exact le_rfl) i)
  | bound k => exact Nat.le_add_right_of_le (hupd k _ (by exact le_rfl) i)
  | gotPdu k c => exact Nat.le_add_right_of_le (hupd c.owner _ (by exact le_rfl) i)
  | _ => exact Nat.le_add_right _ _

/-- A client that makes few calls always has calls left. -/
theorem steps_fewCalls {acts : List (Action ι Ω)}
    (h : (s.clients i).xid + acts.countP (Action.isCallOf i) ≤ 2 ^ 32 - 1) :
    Steps (Sys.step cfg) (FewCalls i) s acts := by
  induction acts generalizing s with
  | nil => trivial
  | cons a acts ih =>
    rw [List.countP_cons] at h
    refine ⟨?_, fun s' hs => ih ?_⟩
    · cases a with
      | call k bind proc ts args ret =>
        rintro rfl
        simp only [Action.isCallOf, decide_true, if_true] at h
        omega
      | _ => trivial
    · have := xid_le (Sys.move_of_step hs) i
      omega

theorem Regular.steps_fewCalls {acts : List (Action ι Ω)} (hi : Regular cfg i acts) :
    Steps (Sys.step cfg) (FewCalls i) .init acts := by
  have hinit : ((Sys.init : Sys ι Ω).clients i).xid = 1 := rfl
  exact Rpc.steps_fewCalls (by have := hi.few; omega)

theorem based_and_step {I : Sys ι Ω → Prop} {C : Sys ι Ω → Action ι Ω → Prop}
    (hstep : ∀ s a s', Based cfg i s → I s → C s a → Sys.Move cfg s a s' → I s') (s : Sys ι Ω)
    (a : Action ι Ω) (s' : Sys ι Ω) (h : Based cfg i s ∧ I s) (hC : FewCalls i s a ∧ C s a)
    (hs : s.step cfg a = some s') : Based cfg i s' ∧ I s' := by
  have hm := Sys.move_of_step hs
  exact ⟨h.1.step hC.1 hm, hstep s a s' h.1 h.2 hC.2 hm⟩

/-- **The invariant rule** for runs of the system, with what is known of
client `i` at hand. -/
theorem Regular.invariant {acts : List (Action ι Ω)} {I : Sys ι Ω → Prop}
    {C : Sys ι Ω → Action ι Ω → Prop} (hi : Regular cfg i acts) (h0 : I .init)
    (hstep : ∀ s a s', Based cfg i s → I s → C s a → Sys.Move cfg s a s' → I s')
    (hC : Steps (Sys.step cfg) C .init acts) (hexec : exec (Sys.step cfg) .init acts = some s) :
    Based cfg i s ∧ I s :=
  exec_invariant_of_steps (based_and_step hstep) ⟨based_init hi.toDistinct, h0⟩
    (hi.steps_fewCalls.and hC) hexec

/-- The rule where there is no condition on the steps. -/
theorem Regular.reached {acts : List (Action ι Ω)} {I : Sys ι Ω → Prop} (hi : Regular cfg i acts)
    (h0 : I .init) (hstep : ∀ s a s', Based cfg i s → I s → Sys.Move cfg s a s' → I s')
    (hexec : exec (Sys.step cfg) .init acts = some s) : I s :=
  (hi.invariant h0 (fun s a s' hb h _ hm => hstep s a s' hb h hm)
    (steps_of_forall (C := fun _ _ => True) fun _ _ _ => trivial) hexec).2

/-- **Runs.** -/
theorem Regular.based {acts : List (Action ι Ω)} (hi : Regular cfg i acts)
    (hexec : exec (Sys.step cfg) .init acts = some s) : Based cfg i s :=
  exec_invariant_of_steps (fun _ _ _ h hC hs => h.step hC (Sys.move_of_step hs))
    (based_init hi.toDistinct) hi.steps_fewCalls hexec

end

/-! ## A system with one client -/

/-- One client, and a server with a procedure that returns its argument. -/
def oneClient : Config Unit Unit where
  cltNonce := fun _ => 7
  retrans := fun _ => true
  nonce := 9
  handlers := fun proc =>
    if proc = 2 then some ⟨[.basic .int], .basic .int, fun _ a => (0, a.1)⟩ else none
  mem := fun _ => 0

/-- The client makes the call `x`, and the server reads the request. -/
def ask (proc : UInt32) (x : ℕ) : List (Action Unit Unit) :=
  [.call () (proc = bindProc) proc [.basic .int] (5, ()) (.basic .int), .transmit () x true,
    .recv 0]

/-- The server takes `k` steps with the job that came last. -/
def serve (k : ℕ) : List (Action Unit Unit) := List.replicate k (.dispatch 0 ())

/-- The client binds. -/
def bindFirst : List (Action Unit Unit) :=
  ask bindProc 1 ++ serve 6 ++ [.gotPdu 0, .finish () 1, .bound () 0]

/-- The client finds its connection `k` dead and transmits the call `x`
on a fresh one, from which the server reads. -/
def retry (k x : ℕ) : List (Action Unit Unit) :=
  [.dieClient ⟨(), k⟩, .wake () x, .transmit () x true, .recv 0]

theorem regular_oneClient {acts : List (Action Unit Unit)} (h : acts.length < 2 ^ 32 - 1)
    (i : Unit) :
    Regular oneClient i acts where
  ne_zero := by simp [oneClient]
  eq_of_eq := fun _ _ => rfl
  few := Nat.lt_of_le_of_lt List.countP_le_length h

end Rpc

end Yfs
