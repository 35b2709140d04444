import Yfs.Rpc.Arrivals

/-!
# At-most-once execution

The server runs the handler once for each time the `NEW` branch of
`dispatch` is taken (`accounted_of_exec`), and the branch is taken for a
request whose entry is not in the reply window. A late copy can find its
entry gone: it was pruned by a request that acknowledges it and arrived in
between. Apart from such copies every call is executed at most once
(`atMostOnce_iff`).
-/

namespace Yfs

open Common

namespace Rpc

variable {ι Ω : Type}

/-- For each call of each client, the `NEW` branch is taken and the
handler runs at most once. -/
def AtMostOnce (cfg : Config ι Ω) (log : List (Event ι Ω)) : Prop :=
  ∀ i x, log.countP (Event.isNew (cfg.cltNonce i) x) ≤ 1 ∧
    log.countP (Event.isRun cfg (cfg.cltNonce i) x) ≤ 1

/-- No copy of a request arrives that has arrived before, with a request
of the same client in between that acknowledges it. -/
def NoStale (n : UInt32) (hs : List ReqHeader) : Prop :=
  ∀ x late ack early, [late, ack, early].Sublist hs →
    early.IsFor n x → ack.Acks n x → ¬ late.IsFor n x

/-! ## Counting arrivals -/

section

variable {n : UInt32} {x : ℕ} {log : List (Event ι Ω)}

/-- The requests of the client acknowledge only others. -/
def Forward (n : UInt32) (hs : List ReqHeader) : Prop :=
  ∀ h ∈ hs, h.cltNonce = n → h.xidRep.toUInt32.toNat < h.xid.toUInt32.toNat

theorem countP_isNew_cons (h : ReqHeader) (st : RpcState) :
    (Event.classified h st :: log).countP (Event.isNew n x) =
      log.countP (Event.isNew n x) + if st = .new ∧ h.IsFor n x then 1 else 0 := by
  rw [List.countP_cons]
  simp [Event.isNew]

/-- The first copy to arrive is new. -/
theorem countP_isNew_pos (hj : Judged n log) (harr : ∃ d ∈ arrivals log, d.IsFor n x) :
    1 ≤ log.countP (Event.isNew n x) := by
  induction log with
  | nil =>
    obtain ⟨d, hd, -⟩ := harr
    cases hd
  | cons e log ih =>
    cases e with
    | classified h st =>
      rw [countP_isNew_cons]
      by_cases hold : ∃ d ∈ arrivals log, d.IsFor n x
      · exact Nat.le_add_right_of_le (ih hj.2 hold)
      · -- no copy has arrived before
        have hx : h.IsFor n x := by
          obtain ⟨d, hd, hdx⟩ := harr
          rcases List.mem_cons.1 hd with rfl | hd
          · exact hdx
          · exact absurd ⟨d, hd, hdx⟩ hold
        have hnew : st = .new := (hj.1 hx.1).2.2 fun hp => hold (hx.2 ▸ exists_of_present hp)
        rw [if_pos ⟨hnew, hx⟩]
        omega
    | _ => exact ih hj harr

/-- After an acknowledgement either a copy has been found new again, or
the next will be. -/
theorem two_le_or_not_present (hj : Judged n log) (hf : Forward n (arrivals log))
    {ack early : ReqHeader} (hsub : [ack, early].Sublist (arrivals log))
    (hearly : early.IsFor n x) (hack : ack.Acks n x) :
    2 ≤ log.countP (Event.isNew n x) ∨
      1 ≤ log.countP (Event.isNew n x) ∧ ¬ Present n x (arrivals log) := by
  induction log with
  | nil => cases hsub
  | cons e log ih =>
    cases e with
    | classified h st =>
      have hf' : Forward n (arrivals log) := fun d hd => hf d (List.mem_cons_of_mem h hd)
      rw [countP_isNew_cons]
      rcases List.sublist_cons_iff.1 hsub with hsub | ⟨r, hr, hsub⟩
      · rcases ih hj.2 hf' hsub with h2 | ⟨h1, hno⟩
        · exact .inl (by omega)
        · by_cases hx : h.IsFor n x
          · have hnew : st = .new := (hj.1 hx.1).2.2 (hx.2 ▸ hno)
            rw [if_pos ⟨hnew, hx⟩]
            exact .inl (by omega)
          · exact .inr ⟨by omega, fun hp => hp.elim hx fun hp => hno hp.2⟩
      · -- the acknowledgement itself, which is for a later call
        obtain ⟨rfl, rfl⟩ := List.cons_eq_cons.1 hr
        have h1 := countP_isNew_pos hj.2 ⟨early, List.singleton_sublist.1 hsub, hearly⟩
        have hlt := hf ack List.mem_cons_self hack.1
        refine .inr ⟨by omega, fun hp => hp.elim (fun hx => ?_) fun hp => hp.1 hack⟩
        have := hack.2
        have := hx.2
        omega
    | _ => exact ih hj hf hsub

/-- **Arrivals.** A call is found new twice exactly when a stale copy of
it arrives. -/
theorem noStale_iff (hj : Judged n log) (hf : Forward n (arrivals log)) :
    (∀ x, log.countP (Event.isNew n x) ≤ 1) ↔ NoStale n (arrivals log) := by
  induction log with
  | nil => exact iff_of_true (by simp) fun x late ack early hsub => by cases hsub
  | cons e log ih =>
    cases e with
    | classified h st =>
      have hf' : Forward n (arrivals log) := fun d hd => hf d (List.mem_cons_of_mem h hd)
      have hprev := ih hj.2 hf'
      constructor
      · intro hle x late ack early hsub hearly hack hlate
        have hx := hle x
        rw [countP_isNew_cons] at hx
        rcases List.sublist_cons_iff.1 hsub with hsub | ⟨r, hr, hsub⟩
        · refine hprev.1 (fun y => ?_) x late ack early hsub hearly hack hlate
          have hy := hle y
          rw [countP_isNew_cons] at hy
          omega
        · obtain ⟨rfl, rfl⟩ := List.cons_eq_cons.1 hr
          rcases two_le_or_not_present hj.2 hf' hsub hearly hack with h2 | ⟨h1, hno⟩
          · omega
          · have hnew : st = .new := (hj.1 hlate.1).2.2 (hlate.2 ▸ hno)
            rw [if_pos ⟨hnew, hlate⟩] at hx
            omega
      · intro hns x
        have hns' : NoStale n (arrivals log) := fun x late ack early hsub =>
          hns x late ack early (hsub.cons h)
        have hx := hprev.2 hns' x
        rw [countP_isNew_cons]
        by_cases hnew : st = .new ∧ h.IsFor n x
        · -- were it the second time, this copy would be stale
          suffices hzero : ¬ 1 ≤ log.countP (Event.isNew n x) by
            rw [if_pos hnew]
            omega
          intro hpos
          have harr : ∃ d ∈ arrivals log, d.IsFor n x := by
            obtain ⟨e, he, hex⟩ := List.countP_pos_iff.1 hpos
            cases e with
            | classified d st' =>
              exact ⟨d, List.mem_filterMap.2 ⟨_, he, rfl⟩, (of_decide_eq_true hex).2⟩
            | _ => cases hex
          have hno : ¬ Present n x (arrivals log) := hnew.2.2 ▸ (hj.1 hnew.2.1).2.1 hnew.1
          obtain ⟨ack, early, hsub, hearly, hack⟩ := exists_ack_of_not_present hno harr
          exact hns x h ack early (hsub.cons_cons h) hearly hack hnew.2
        · rw [if_neg hnew]
          omega
    | _ => exact ih hj hf

end

/-! ## Executions -/

/-- The thread is at the handler. -/
def Phase.isHandler : Phase ι → Bool
  | .handler => true
  | _ => false

/-- The job is at the handler, for the request `x` of the client with
nonce `n`. -/
def Job.atHandler (cfg : Config ι Ω) (n : UInt32) (x : ℕ) (j : Job ι) : Bool :=
  j.phase.isHandler && decide ((Sys.header cfg j).IsFor n x)

/-- Each time the `NEW` branch was taken, the handler has run or is about
to. -/
def Accounted (cfg : Config ι Ω) (n : UInt32) (x : ℕ) (s : Sys ι Ω) : Prop :=
  s.log.countP (Event.isNew n x) =
    s.log.countP (Event.isRun cfg n x) + s.jobs.countP (Job.atHandler cfg n x)

section

variable {cfg : Config ι Ω} {n : UInt32} {x : ℕ} {s s' : Sys ι Ω} {a : Action ι Ω}

/-- A job goes from one phase to another, and neither is the handler. -/
theorem countP_atHandler_goto {j : Job ι} {rest : List (Job ι)} {p : Phase ι}
    (hperm : s.jobs.Perm (j :: rest)) (hj : j.phase.isHandler = false) (hp : p.isHandler = false) :
    (j.goto p :: rest).countP (Job.atHandler cfg n x) = s.jobs.countP (Job.atHandler cfg n x) := by
  rw [hperm.countP_eq, List.countP_cons, List.countP_cons]
  simp [Job.atHandler, Job.goto, hj, hp]

/-- A job ends, and is not at the handler. -/
theorem countP_atHandler_end (cfg : Config ι Ω) (n : UInt32) (x : ℕ) {j : Job ι}
    {rest : List (Job ι)} (hperm : s.jobs.Perm (j :: rest)) (hj : j.phase.isHandler = false) :
    rest.countP (Job.atHandler cfg n x) = s.jobs.countP (Job.atHandler cfg n x) := by
  rw [hperm.countP_eq, List.countP_cons]
  simp [Job.atHandler, hj]

theorem Accounted.check (h : Accounted cfg n x s) {j : Job ι} {rest : List (Job ι)}
    (hperm : s.jobs.Perm (j :: rest)) (hphase : j.phase = .check) :
    Accounted cfg n x (s.check cfg j rest) := by
  have hj : j.phase.isHandler = false := by rw [hphase]; rfl
  have hrest := countP_atHandler_end cfg n x hperm hj
  simp only [Accounted, Sys.check] at h ⊢
  rw [countP_isNew_cons, h, ← hrest]
  generalize checkduplicateAndUpdate (s.replyWindow (Sys.parse cfg j.pdu).2.cltNonce) _ _ = r
  cases r.2.1 with
  | new =>
    by_cases hx : (Sys.parse cfg j.pdu).2.IsFor n x <;>
      simp [Event.isRun, Job.atHandler, Job.goto, Phase.isHandler, Sys.header, hx]
    omega
  | inprogress => simp [Event.isRun]
  | done => simp [Event.isRun, Job.atHandler, Job.goto, Phase.isHandler]
  | forgotten => simp [Event.isRun, Job.atHandler, Job.goto, Phase.isHandler]

theorem Accounted.step [DecidableEq ι] (hn : n ≠ 0) (h : Accounted cfg n x s)
    (hm : Sys.Move cfg s a s') : Accounted cfg n x s' := by
  cases hm with
  | gotPdu k c b rest log xid hperm hlen hok hxid hlog =>
    rcases Sys.log_gotPdu hlog with rfl | rfl
    · exact h
    · exact h
  | reject k w j rest hpick hperm hphase =>
    exact h.trans (congrArg _ (countP_atHandler_end cfg n x hperm (by rw [hphase]; rfl)).symm)
  | oldsrv k w j rest hpick hperm hphase =>
    exact h.trans (congrArg _ (countP_atHandler_goto hperm (by rw [hphase]; rfl) rfl).symm)
  | accept k w j rest hpick hperm hphase =>
    exact h.trans (congrArg _ (countP_atHandler_goto hperm (by rw [hphase]; rfl) rfl).symm)
  | anonymous k w j rest hpick hperm hphase hok hnonce =>
    -- the client has no nonce, and `n` is one
    have hno : ¬ (Sys.header cfg j).IsFor n x := fun hx => hn (hx.1.symm.trans hnonce)
    have hrest := countP_atHandler_end cfg n x hperm (by rw [hphase]; rfl)
    simp only [Accounted] at h ⊢
    rw [h, ← hrest, List.countP_cons]
    simp [Job.atHandler, hno]
  | check k w j rest hpick hperm hphase => exact h.check hperm hphase
  | handler k w j rest f b hpick hperm hphase hf hret hb =>
    have hgoto : ∀ p : Phase ι, p.isHandler = false →
        (j.goto p :: rest).countP (Job.atHandler cfg n x) =
          rest.countP (Job.atHandler cfg n x) := by
      intro p hp
      simp [Job.atHandler, Job.goto, hp]
    have hj : Job.atHandler cfg n x j = decide ((Sys.parse cfg j.pdu).2.IsFor n x) := by
      rw [Job.atHandler, hphase]
      rfl
    simp only [Accounted, hperm.countP_eq] at h ⊢
    rw [hgoto _ (by split <;> rfl)]
    rw [List.countP_cons, hj] at h
    by_cases hx : (Sys.parse cfg j.pdu).2.IsFor n x <;>
      simp [Event.isRun, Event.isNew, hx] at h ⊢ <;> omega
  | addReply k w j rest b hpick hperm hphase =>
    exact h.trans (congrArg _ (countP_atHandler_goto hperm (by rw [hphase]; rfl) rfl).symm)
  | choose k w j rest b c hpick hperm hphase hc =>
    exact h.trans (congrArg _ (countP_atHandler_goto hperm (by rw [hphase]; rfl) rfl).symm)
  | send k w j rest c st b hpick hperm hphase =>
    have hrest := countP_atHandler_end cfg n x hperm (by rw [hphase]; rfl)
    simp only [Accounted, Sys.send] at h ⊢
    rw [hrest]
    split
    · exact h
    · exact h
  | _ => exact h

/-- **Every execution is for one time the `NEW` branch was taken.** -/
theorem accounted_of_exec [DecidableEq ι] (hn : n ≠ 0) {acts : List (Action ι Ω)}
    (hexec : exec (Sys.step cfg) .init acts = some s) : Accounted cfg n x s := by
  have h0 : Accounted cfg n x (Sys.init : Sys ι Ω) := rfl
  exact exec_invariant (fun _ _ _ h hs => h.step hn (Sys.move_of_step hs)) h0 hexec

/-! ## The result -/

theorem Arrived.forward {i : ι} (hb : Based cfg i s) (h : Arrived cfg i s) :
    Forward (cfg.cltNonce i) (arrivals s.log) := by
  intro d hd hdn
  obtain ⟨q, hq, rfl⟩ := h.packed d hd hdn
  rw [hb.xid_hdr hq, hb.xidRep_hdr hq]
  exact (hb.ledger.acks q hq).1

/-- Where no stale copy arrives, a call is executed or at the handler, at
most once. -/
theorem Regular.once [DecidableEq ι] {i : ι} {acts : List (Action ι Ω)} (hi : Regular cfg i acts)
    (hexec : exec (Sys.step cfg) .init acts = some s)
    (hstale : NoStale (cfg.cltNonce i) (arrivals s.log)) (x : ℕ) :
    s.log.countP (Event.isRun cfg (cfg.cltNonce i) x) +
      s.jobs.countP (Job.atHandler cfg (cfg.cltNonce i) x) ≤ 1 := by
  -- both come after the `NEW` branch
  have harr := hi.arrived hexec
  have hnew := (noStale_iff harr.judged (harr.forward (hi.based hexec))).2 hstale x
  have hacc : Accounted cfg (cfg.cltNonce i) x s := accounted_of_exec hi.ne_zero hexec
  exact hacc ▸ hnew

/-- **At-most-once execution.** In every run, each call of each client is
executed at most once if and only if no stale copy of a request arrives. -/
theorem atMostOnce_iff [DecidableEq ι] {acts : List (Action ι Ω)}
    (hclients : ∀ i, Regular cfg i acts) (hexec : exec (Sys.step cfg) .init acts = some s) :
    AtMostOnce cfg s.log ↔ ∀ i, NoStale (cfg.cltNonce i) (arrivals s.log) := by
  rw [AtMostOnce]
  refine forall_congr' fun i => ?_
  have hb := (hclients i).based hexec
  have harr := (hclients i).arrived hexec
  rw [← noStale_iff harr.judged (harr.forward hb)]
  refine forall_congr' fun x => ⟨And.left, fun hnew => ⟨hnew, ?_⟩⟩
  -- no more executions than times the branch was taken
  have hacc : Accounted cfg (cfg.cltNonce i) x s := accounted_of_exec (hclients i).ne_zero hexec
  rw [Accounted] at hacc
  omega

end

/-- The call 2 is transmitted twice. The second copy is executed and
answered, and the call 3 acknowledges it; then the first copy comes to be
dispatched. -/
def staleRun : List (Action Unit Unit) :=
  bindFirst ++ ask 2 2 ++ retry 0 2 ++ serve 6 ++ [.gotPdu 0, .finish () 2] ++ ask 2 3 ++ serve 6 ++
    serve 3

theorem exec_staleRun : ∃ s, exec (Sys.step oneClient) .init staleRun = some s ∧
    s.log.countP (Event.isNew 7 2) = 2 ∧ s.log.countP (Event.isRun oneClient 7 2) = 2 := by
  have h : (exec (Sys.step oneClient) .init staleRun).map (fun s =>
      (s.log.countP (Event.isNew 7 2), s.log.countP (Event.isRun oneClient 7 2))) =
        some (2, 2) := by
    decide +kernel
  obtain ⟨s, hs, hcount⟩ := Option.map_eq_some_iff.1 h
  exact ⟨s, hs, congrArg Prod.fst hcount, congrArg Prod.snd hcount⟩

/-- The handler runs twice for one call. -/
theorem not_atMostOnce_staleRun : ∃ s, (∀ i, Regular oneClient i staleRun) ∧
    exec (Sys.step oneClient) .init staleRun = some s ∧ ¬ AtMostOnce oneClient s.log := by
  obtain ⟨s, hs, hnew, -⟩ := exec_staleRun
  refine ⟨s, regular_oneClient (by decide), hs, fun h => ?_⟩
  have hle : s.log.countP (Event.isNew 7 2) ≤ 1 := (h () 2).1
  omega

theorem atMostOnce_iff_staleRun : ∃ s, exec (Sys.step oneClient) .init staleRun = some s ∧
    ¬ ∀ i, NoStale (oneClient.cltNonce i) (arrivals s.log) := by
  obtain ⟨s, hs, hnew, -⟩ := exec_staleRun
  refine ⟨s, hs, fun hns => ?_⟩
  have h := (atMostOnce_iff (regular_oneClient (by decide)) hs).2 hns
  have hle : s.log.countP (Event.isNew 7 2) ≤ 1 := (h () 2).1
  omega

end Rpc

end Yfs
