import Yfs.Rpc.Based

/-!
# Restarts of the server

One `rpcs` after the other at one address, each with a `nonce_` of its
own, and the clients they leave behind: a client goes on with the
`srv_nonce_` that it got when it was bound, and a request packed under it
may reach an instance that came later. `dispatch` refuses it by its
nonce, except that 0 means a client that is not bound to any. So no
instance executes a request that was meant for one before it, as long as
none that has the nonce 0 is replaced (`refusesStale_of_nonzero`).
-/

namespace Yfs

open Common

namespace Rpc

variable {ι Ω : Type}

/-- The system, with the nonces of the instance that runs and of those
before it. -/
structure Instances (ι Ω : Type) where
  sys : Sys ι Ω
  nonce : UInt32
  past : List UInt32

namespace Instances

/-- The first instance has just been started. -/
def init (nonce : UInt32) : Instances ι Ω := ⟨.init, nonce, []⟩

/-- The configuration with the nonce of the instance that runs. -/
def config (s : Instances ι Ω) (cfg : Config ι Ω) : Config ι Ω := { cfg with nonce := s.nonce }

/-- What can happen. -/
inductive Act (ι Ω : Type) where
  /-- A step of the clients, the network or the instance that runs. -/
  | act (a : Action ι Ω)
  /-- The instance is replaced by one that knows nothing of its clients.
  Which connections it finds dead is open, so a message on its way may
  get lost or reach it. -/
  | restart (nonce : UInt32) (srvDead : Conn ι → Bool)

variable [DecidableEq ι]

/-- One step. The nonces are distinct. -/
def step (cfg : Config ι Ω) (s : Instances ι Ω) : Act ι Ω → Option (Instances ι Ω)
  | .act a => (s.sys.step (s.config cfg) a).map fun t => { s with sys := t }
  | .restart nonce srvDead =>
    if nonce ∈ s.nonce :: s.past then none
    else
      some ⟨{ s.sys with
          replyWindow := fun _ => [], conns := fun _ => none, jobs := [], srvDead := srvDead },
        nonce, s.nonce :: s.past⟩

end Instances

/-! ## What is promised -/

/-- The PDU is a request, other than to bind, that was packed by a client
bound to an instance before the one that runs. -/
def Stale (cfg : Config ι Ω) (s : Instances ι Ω) (pdu : List UInt8) : Prop :=
  ∃ i q, .called i q ∈ s.sys.log ∧ q.proc ≠ bindProc ∧ q.srvNonce ∈ s.past ∧ pdu = q.wire cfg i

/-- The event is that this request was packed. -/
def Event.packsStale (cfg : Config ι Ω) (past : List UInt32) (pdu : List UInt8) :
    Event ι Ω → Bool
  | .called i q => decide (q.proc ≠ bindProc ∧ q.srvNonce ∈ past ∧ pdu = q.wire cfg i)
  | _ => false

theorem stale_iff_any {cfg : Config ι Ω} {s : Instances ι Ω} {pdu : List UInt8} :
    Stale cfg s pdu ↔ s.sys.log.any (Event.packsStale cfg s.past pdu) = true := by
  rw [List.any_eq_true]
  constructor
  · rintro ⟨i, q, hmem, h⟩
    exact ⟨.called i q, hmem, decide_eq_true h⟩
  · rintro ⟨e, hmem, he⟩
    cases e with
    | called i q => exact ⟨i, q, hmem, of_decide_eq_true he⟩
    | _ => cases he

instance (cfg : Config ι Ω) (s : Instances ι Ω) (pdu : List UInt8) :
    Decidable (Stale cfg s pdu) := decidable_of_iff _ stale_iff_any.symm

/-- The reply to a request that is for another instance. -/
def oldsrvReply (cfg : Config ι Ω) (j : Job ι) : List UInt8 :=
  failureReply cfg.mem (Sys.header cfg j) oldsrvFailure

/-- The step does not replace an instance that has the nonce 0. -/
def KeepsZero (s : Instances ι Ω) : Instances.Act ι Ω → Prop
  | .restart _ _ => s.nonce ≠ 0
  | .act _ => True

instance (s : Instances ι Ω) : (a : Instances.Act ι Ω) → Decidable (KeepsZero s a)
  | .restart _ _ => inferInstanceAs (Decidable (s.nonce ≠ 0))
  | .act _ => inferInstanceAs (Decidable True)

/-! ## Jobs that got past the test -/

/-- The header is for this instance, or for none. -/
def Meant (nonce : UInt32) (h : ReqHeader) : Prop := h.srvNonce = 0 ∨ h.srvNonce = nonce

/-- How far a job can have come: past the test of the nonce only if it is
meant for this instance. -/
def Screened (cfg : Config ι Ω) (nonce : UInt32) (j : Job ι) : Prop :=
  j.pdu.length ≤ maxPdu ∧
    (j.phase = .queued ∨ j.phase = .send j.conn none (oldsrvReply cfg j) ∨
      Meant nonce (Sys.header cfg j))

/-- The invariant. -/
structure Guarded (cfg : Config ι Ω) (s : Instances ι Ω) : Prop where
  jobs : ∀ j ∈ s.sys.jobs, Screened cfg s.nonce j
  fresh : s.nonce ∉ s.past
  nonzero : 0 ∉ s.past

variable {cfg : Config ι Ω} {s s' : Instances ι Ω}

/-- A request for an instance before is not meant for this one. -/
theorem Guarded.not_meant (h : Guarded cfg s) {j : Job ι} (hlen : j.pdu.length ≤ maxPdu)
    (hstale : Stale cfg s j.pdu) : ¬ Meant s.nonce (Sys.header cfg j) := by
  obtain ⟨i, q, -, -, hpast, hpdu⟩ := hstale
  have hheader : Sys.header cfg j = q.hdr (cfg.cltNonce i) := by
    rw [Sys.header, hpdu]
    exact (parse_wire q i (hpdu ▸ hlen)).1
  rw [Meant, hheader]
  rintro (hzero | hown)
  · exact h.nonzero (hzero ▸ hpast)
  · exact h.fresh (hown ▸ hpast)

/-- A job that is meant for this instance goes on. -/
theorem Screened.goto {nonce : UInt32} {j : Job ι} (h : Screened cfg nonce j)
    (hp : j.phase ≠ .queued) (hp' : ∀ c b, j.phase ≠ .send c none b) (p : Phase ι) :
    Screened cfg nonce (j.goto p) := by
  refine ⟨h.1, .inr (.inr ?_)⟩
  rcases h.2 with hq | hq | hq
  · exact absurd hq hp
  · exact absurd hq (hp' _ _)
  · exact hq

theorem meant_of_not_refused {h : ReqHeader} (hok : ¬ Sys.Refused cfg h) : Meant cfg.nonce h := by
  by_contra hno
  exact hok (.inl (not_or.1 hno))

theorem parse_config (s : Instances ι Ω) (pdu : List UInt8) :
    Sys.parse (s.config cfg) pdu = Sys.parse cfg pdu := rfl

theorem header_config (s : Instances ι Ω) (j : Job ι) :
    Sys.header (s.config cfg) j = Sys.header cfg j := rfl

/-- The start of `dispatch` with a request for another instance. -/
theorem start_oldsrv (s : Sys ι Ω) {j : Job ι} (rest : List (Job ι))
    (hok : (Sys.parse cfg j.pdu).1.ok = true)
    (hold : (Sys.header cfg j).srvNonce ≠ 0 ∧ (Sys.header cfg j).srvNonce ≠ cfg.nonce) :
    s.start cfg j rest =
      { s with jobs := j.goto (.send j.conn none (oldsrvReply cfg j)) :: rest } := by
  rw [Sys.header] at hold
  unfold Sys.start
  dsimp only
  rw [if_neg (by rw [hok]; simp), if_pos hold]
  rfl

/-- The handler leaves a record that it ran. -/
theorem log_runHandler {s t : Sys ι Ω} {j : Job ι} {rest : List (Job ι)} {w : Ω}
    (h : s.runHandler cfg j rest w = some t) :
    ∃ ret b, t.log = .executed j.pdu w ret b :: s.log := by
  unfold Sys.runHandler at h
  dsimp only at h
  split at h
  · cases h
  · split at h
    · cases h
    · obtain rfl := Option.some.inj h
      exact ⟨_, _, rfl⟩

variable [DecidableEq ι]

/-- **A step of the system** lets no job past the test that is not meant
for the instance. -/
theorem screened_of_move {s t : Sys ι Ω} {a : Action ι Ω}
    (h : ∀ j ∈ s.jobs, Screened cfg cfg.nonce j) (hm : Sys.Move cfg s a t) :
    ∀ j ∈ t.jobs, Screened cfg cfg.nonce j := by
  have hpicked : ∀ {j : Job ι} {rest : List (Job ι)}, s.jobs.Perm (j :: rest) →
      Screened cfg cfg.nonce j ∧ ∀ j ∈ rest, Screened cfg cfg.nonce j := by
    intro j rest hperm
    exact List.forall_mem_cons.1 fun j hj => h j (hperm.symm.subset hj)
  cases hm with
  | recv k c b rest hperm hlen => exact List.forall_mem_cons.2 ⟨⟨hlen, .inl rfl⟩, h⟩
  | reject k w j rest hpick hperm hphase hbad => exact (hpicked hperm).2
  | oldsrv k w j rest hpick hperm hphase hold =>
    obtain ⟨hj, hrest⟩ := hpicked hperm
    exact List.forall_mem_cons.2 ⟨⟨hj.1, .inr (.inl rfl)⟩, hrest⟩
  | accept k w j rest hpick hperm hphase hok hnonce =>
    obtain ⟨hj, hrest⟩ := hpicked hperm
    exact List.forall_mem_cons.2 ⟨⟨hj.1, .inr (.inr (meant_of_not_refused hok))⟩, hrest⟩
  | anonymous k w j rest hpick hperm hphase hok hnonce =>
    obtain ⟨hj, hrest⟩ := hpicked hperm
    exact List.forall_mem_cons.2 ⟨⟨hj.1, .inr (.inr (meant_of_not_refused hok))⟩, hrest⟩
  | check k w j rest hpick hperm hphase =>
    obtain ⟨hj, hrest⟩ := hpicked hperm
    have hgoto := hj.goto (by simp [hphase]) (by simp [hphase])
    obtain ⟨r, -, heq⟩ := Sys.classified_check cfg s j rest
    rw [heq]
    dsimp only
    split
    · exact List.forall_mem_cons.2 ⟨hgoto _, hrest⟩
    · exact hrest
    · exact List.forall_mem_cons.2 ⟨hgoto _, hrest⟩
    · exact List.forall_mem_cons.2 ⟨hgoto _, hrest⟩
  | handler k w j rest f b hpick hperm hphase hf hret hb =>
    obtain ⟨hj, hrest⟩ := hpicked hperm
    exact List.forall_mem_cons.2 ⟨hj.goto (by simp [hphase]) (by simp [hphase]) _, hrest⟩
  | addReply k w j rest b hpick hperm hphase =>
    obtain ⟨hj, hrest⟩ := hpicked hperm
    exact List.forall_mem_cons.2 ⟨hj.goto (by simp [hphase]) (by simp [hphase]) _, hrest⟩
  | choose k w j rest b c hpick hperm hphase hc =>
    obtain ⟨hj, hrest⟩ := hpicked hperm
    exact List.forall_mem_cons.2 ⟨hj.goto (by simp [hphase]) (by simp [hphase]) _, hrest⟩
  | send k w j rest c st b hpick hperm hphase => exact (hpicked hperm).2
  | _ => exact h

theorem Guarded.step {a : Instances.Act ι Ω} (h : Guarded cfg s) (hkeep : KeepsZero s a)
    (hs : s.step cfg a = some s') : Guarded cfg s' := by
  cases a with
  | act a =>
    obtain ⟨t, ht, rfl⟩ := Option.map_eq_some_iff.1 hs
    exact ⟨screened_of_move (h.jobs :) (Sys.move_of_step ht), h.fresh, h.nonzero⟩
  | restart nonce srvDead =>
    unfold Instances.step at hs
    dsimp only at hs
    split at hs
    · cases hs
    · rename_i hfresh
      obtain rfl := Option.some.inj hs
      refine ⟨fun j hj => ?_, hfresh, ?_⟩
      · cases hj
      · exact List.not_mem_cons_of_ne_of_not_mem (Ne.symm hkeep) h.nonzero

theorem Guarded.answered (h : Guarded cfg s) {k : ℕ} (w : Ω) {j : Job ι}
    (hk : s.sys.jobs[k]? = some j) (hstale : Stale cfg s j.pdu) :
    ∃ s', s.step cfg (.act (.dispatch k w)) = some s' ∧
      s'.sys.replyWindow = s.sys.replyWindow ∧ s'.sys.conns = s.sys.conns ∧
      (j.phase = .queued ∧ s'.sys.jobs =
          j.goto (.send j.conn none (oldsrvReply cfg j)) :: s.sys.jobs.eraseIdx k ∨
        j.phase = .send j.conn none (oldsrvReply cfg j) ∧
          s'.sys.toClt = s.sys.onWire j.conn (oldsrvReply cfg j) ++ s.sys.toClt) := by
  obtain ⟨hlen, hphase | hphase | hmeant⟩ := h.jobs j (List.mem_of_getElem? hk)
  · -- the test of the nonce
    have hold : (Sys.header cfg j).srvNonce ≠ 0 ∧ (Sys.header cfg j).srvNonce ≠ s.nonce :=
      not_or.1 (h.not_meant hlen hstale)
    have hok : (Sys.parse cfg j.pdu).1.ok = true := by
      obtain ⟨i, q, -, -, -, hpdu⟩ := hstale
      rw [hpdu]
      exact (parse_wire q i (hpdu ▸ hlen)).2.ok
    rw [← parse_config s] at hok
    rw [← header_config s] at hold
    have hstart := start_oldsrv s.sys (s.sys.jobs.eraseIdx k) hok hold
    refine ⟨{ s with sys := s.sys.start (s.config cfg) j (s.sys.jobs.eraseIdx k) }, ?_, ?_⟩
    · simp only [Instances.step, Sys.step, Sys.dispatch, hk, hphase, Option.map_some]
    · rw [hstart]
      exact ⟨rfl, rfl, .inl ⟨hphase, rfl⟩⟩
  · -- the branch it leads to
    refine ⟨{ s with sys := (s.sys.send (s.config cfg) j (s.sys.jobs.eraseIdx k) j.conn
      (oldsrvReply cfg j)) }, ?_, rfl, rfl, .inr ⟨hphase, rfl⟩⟩
    simp only [Instances.step, Sys.step, Sys.dispatch, hk, hphase, Option.map_some]
  · exact absurd hmeant (h.not_meant hlen hstale)

end Rpc

end Yfs
