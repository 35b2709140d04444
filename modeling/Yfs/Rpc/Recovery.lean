import Yfs.Common.Reach
import Yfs.Rpc.Delivery
import Yfs.Rpc.Genuine
import Yfs.Rpc.Pending

/-!
# Calls can still be answered

Messages and connections are lost, copies of a request are dropped as
duplicates and replies are sent where nobody waits for them. Still a call
that waits is never cut off from its answer: from every state that can be
reached there is a way on, in which the client gives up its connections
and transmits once more and the server does its work, to a state in which
the call has returned with a reply (`call_completes`). What has to be
shown is that the server answers the new copy: an earlier one may be in
progress, and then there is a thread that will store its reply
(`Worked`).
-/

namespace Yfs

open Common

namespace Rpc

variable {ι Ω : Type}

/-- What the thread of the call `x` of client `i`, the poll thread of this
client and the server can do for it. -/
def Mends (i : ι) (x : ℕ) (s : Sys ι Ω) : Action ι Ω → Prop
  | .transmit k y connect => k = i ∧ y = x ∧ connect = true
  | .wake k y => k = i ∧ y = x
  | .finish k y => k = i ∧ y = x
  | .dieClient c => c.owner = i
  | .gotPdu k => ∀ m ∈ s.toClt[k]?, m.1.owner = i
  | .recv _ => True
  | .dispatch _ _ => True
  | _ => False

theorem mends_dispatch {i : ι} {x : ℕ} {s : Sys ι Ω} (k : ℕ) (w : Ω) :
    Mends i x s (.dispatch k w) := trivial

/-- The procedure of the call is registered, its handler returns what a
handler may return, and the request and the replies fit into a PDU. -/
structure Answerable (cfg : Config ι Ω) (i : ι) (q : Request) (f : Handler Ω) : Prop where
  small : (q.wire cfg i).length ≤ maxPdu
  registered : cfg.procs q.proc.toInt32 = some f
  returns : ∀ w, ¬ ((f.fn w (Sys.parse cfg (q.wire cfg i)).1 (.new cfg.mem)).ret < 0 ∧
    (f.fn w (Sys.parse cfg (q.wire cfg i)).1 (.new cfg.mem)).ret ≠ unmarshalArgsFailure)
  fits : ∀ w h, (framed ((f.fn w (Sys.parse cfg (q.wire cfg i)).1
    (.new cfg.mem)).rep.packReplyHeader h).str).length ≤ maxPdu

/-! ## Entries in progress -/

/-- Every entry in progress is being worked on. -/
def Worked (cfg : Config ι Ω) (s : Sys ι Ω) : Prop :=
  ∀ n, n ≠ 0 → ∀ e ∈ s.replyWindow n, e.cbPresent = false →
    ∃ d ∈ s.jobs, Job.fills cfg n e.xid d = true

section

variable {cfg : Config ι Ω} {s s' : Sys ι Ω} {a : Action ι Ω}

/-- A step of the job `j` that puts nothing in progress. -/
theorem Worked.pick (h : Worked cfg s) {j : Job ι} {rest : List (Job ι)}
    (hperm : s.jobs.Perm (j :: rest))
    (hwindow : ∀ n, ∀ e ∈ s'.replyWindow n, e.cbPresent = false → e ∈ s.replyWindow n)
    (hrest : ∀ d ∈ rest, d ∈ s'.jobs)
    (hself : ∀ n, n ≠ 0 → ∀ e ∈ s'.replyWindow n, e.cbPresent = false →
      Job.fills cfg n e.xid j = true → ∃ d ∈ s'.jobs, Job.fills cfg n e.xid d = true) :
    Worked cfg s' := by
  intro n hn e he hp
  exact exists_fills_of_pick hperm (h n hn e (hwindow n e he hp) hp) hrest (hself n hn e he hp)

/-- A request is classified. A new one is in progress from then on, and
its job goes to the handler. -/
theorem Worked.check (h : Worked cfg s) {j : Job ι} {rest : List (Job ι)}
    (hperm : s.jobs.Perm (j :: rest)) (hphase : j.phase = .check) :
    Worked cfg (s.check cfg j rest) := by
  intro n hn e he hp
  have hold : e ∈ s.replyWindow n →
      ∃ d ∈ (s.check cfg j rest).jobs, Job.fills cfg n e.xid d = true := fun he =>
    exists_fills_of_pick hperm (h n hn e he hp) (fun d hd => mem_check_jobs hd)
      fun hf => absurd hf (Job.fills_eq_false (by rw [hphase]; rfl))
  by_cases hnonce : (Sys.header cfg j).cltNonce = n
  · obtain ⟨r, hc, heq⟩ := Sys.classified_check cfg s j rest
    have hw : e ∈ r.1 := by
      rw [heq] at he
      dsimp only at he
      rwa [if_pos hnonce.symm] at he
    rw [hnonce] at hc
    have hkeep : e ∈ (s.replyWindow n).filter
        (fun e => decide ((Sys.header cfg j).xidRep.toUInt32.toNat < e.xid)) →
        ∃ d ∈ (s.check cfg j rest).jobs, Job.fills cfg n e.xid d = true :=
      fun he => hold (List.mem_filter.1 he).1
    cases hc with
    | new hno =>
      rcases List.mem_append.1 hw with hw | hw
      · exact hkeep hw
      · obtain rfl := List.mem_singleton.1 hw
        refine ⟨j.goto .handler, by rw [heq]; exact List.mem_cons_self, ?_⟩
        exact decide_eq_true (p := (Sys.header cfg j).IsFor _ _) ⟨hnonce, rfl⟩
    | inprogress => exact hkeep hw
    | done => exact hkeep hw
    | forgotten => exact hkeep hw
  · rw [Sys.check_replyWindow_of_ne hnonce] at he
    exact hold he

/-- A reply is stored: its entry is no longer in progress. -/
theorem Worked.storeReply (h : Worked cfg s) {j : Job ι} {rest : List (Job ι)} {b : List UInt8}
    (hperm : s.jobs.Perm (j :: rest)) : Worked cfg (s.storeReply cfg j rest b) := by
  -- what is in progress still was there, and is for another request
  have hwas : ∀ n, ∀ e ∈ (s.storeReply cfg j rest b).replyWindow n, e.cbPresent = false →
      e ∈ s.replyWindow n ∧ ¬ (Sys.header cfg j).IsFor n e.xid := by
    intro n e he hp
    by_cases hn : (Sys.header cfg j).cltNonce = n
    · rw [Sys.storeReply_replyWindow hn] at he
      obtain ⟨d, hd, rfl⟩ := List.mem_map.1 he
      by_cases hx : d.xid = (Sys.header cfg j).xid.toUInt32.toNat
      · rw [if_pos hx] at hp
        cases hp
      · rw [if_neg hx] at hp ⊢
        exact ⟨hd, fun hfor => hx hfor.2.symm⟩
    · rw [Sys.storeReply_replyWindow_of_ne hn] at he
      exact ⟨he, fun hfor => hn hfor.1⟩
  refine h.pick hperm (fun n e he hp => (hwas n e he hp).1) (fun _ => List.mem_cons_of_mem _) ?_
  intro n _ e he hp hf
  exact absurd (of_decide_eq_true (Bool.and_eq_true_iff.1 hf).2) (hwas n e he hp).2

variable [DecidableEq ι]

/-- **One step.** -/
theorem Worked.step (h : Worked cfg s) (hm : Sys.Move cfg s a s') : Worked cfg s' := by
  -- the job that moved fills no entry
  have hidle : ∀ {j : Job ι} {rest : List (Job ι)} {s' : Sys ι Ω}, s.jobs.Perm (j :: rest) →
      s'.replyWindow = s.replyWindow → (∀ d ∈ rest, d ∈ s'.jobs) → j.phase.fills = false →
      Worked cfg s' := by
    intro j rest s' hperm hwindow hrest hp
    refine h.pick hperm (fun n e he _ => hwindow ▸ he) hrest fun n _ e _ _ hf => ?_
    exact absurd hf (Job.fills_eq_false hp)
  cases hm with
  | recv k c b rest hperm hlen =>
    intro n hn e he hp
    obtain ⟨d, hd, hf⟩ := h n hn e he hp
    exact ⟨d, List.mem_cons_of_mem _ hd, hf⟩
  | reject k w j rest hpick hperm hphase =>
    exact hidle hperm rfl (fun _ => id) (by rw [hphase]; rfl)
  | oldsrv k w j rest hpick hperm hphase =>
    exact hidle hperm rfl (fun _ => List.mem_cons_of_mem _) (by rw [hphase]; rfl)
  | accept k w j rest hpick hperm hphase =>
    exact hidle hperm rfl (fun _ => List.mem_cons_of_mem _) (by rw [hphase]; rfl)
  | anonymous k w j rest hpick hperm hphase =>
    exact hidle hperm rfl (fun _ => List.mem_cons_of_mem _) (by rw [hphase]; rfl)
  | check k w j rest hpick hperm hphase => exact h.check hperm hphase
  | handler k w j rest f b hpick hperm hphase =>
    refine h.pick hperm (fun n e he _ => he) (fun _ => List.mem_cons_of_mem _) ?_
    intro n hn e he hp hf
    have hfor := of_decide_eq_true (Bool.and_eq_true_iff.1 hf).2
    refine ⟨_, List.mem_cons_self, ?_⟩
    rw [if_pos (hfor.1 ▸ hn)]
    exact decide_eq_true hfor
  | addReply k w j rest b hpick hperm hphase => exact h.storeReply hperm
  | choose k w j rest b c hpick hperm hphase =>
    exact hidle hperm rfl (fun _ => List.mem_cons_of_mem _) (by rw [hphase]; rfl)
  | send k w j rest c st b hpick hperm hphase =>
    exact hidle hperm rfl (fun _ => id) (by rw [hphase]; rfl)
  | _ => exact h

end

/-! ## What is known of every state -/

/-- The invariant. -/
structure Known (cfg : Config ι Ω) (i : ι) (s : Sys ι Ω) : Prop extends Based cfg i s where
  answered : Answered cfg i s
  worked : Worked cfg s

/-- The call `q` has returned, with a reply. -/
def Returned (i : ι) (q : Request) (s : Sys ι Ω) : Prop :=
  ∃ b r, .returned i q b r ∈ s.log ∧ b ≠ timeoutFailure

/-- If there is an entry for the request `x`, it has its reply. -/
def Stored (n : UInt32) (x : ℕ) (s : Sys ι Ω) : Prop :=
  ∀ e ∈ s.replyWindow n, e.xid = x → e.cbPresent = true

section

variable {cfg : Config ι Ω} {i : ι} {s s' : Sys ι Ω} {q : Request} {f : Handler Ω}

/-- The request `q` of client `i` is the one with its xid. -/
theorem Based.eq_of_copy (hb : Based cfg i s) (hq : .called i q ∈ s.log) {j : Job ι} {q' : Request}
    (h : Copy cfg s i j q') (hx : (Sys.header cfg j).xid.toUInt32.toNat = q.xid) : q' = q :=
  hb.ledger.unique q' q h.called_mem hq (h.xid_toNat.symm.trans hx)

/-- A copy of `q` carries a reply to `q`. -/
theorem Based.origin_of_send (hb : Based cfg i s) (hq : .called i q ∈ s.log) {j : Job ι}
    (hj : j ∈ s.jobs) (howner : j.conn.owner = i) (hpdu : j.pdu = q.wire cfg i) {c : Conn ι}
    {st : Option RpcState} {b : List UInt8} (hphase : j.phase = .send c st b) :
    Origin cfg s.log i q.xid b := by
  obtain ⟨q', hq'⟩ := hb.copy hj howner
  have hx : (Sys.header cfg j).xid.toUInt32.toNat = q.xid := by
    rw [hb.header_of_pdu hj hpdu]
    exact hb.xid_hdr hq _
  obtain rfl := hb.eq_of_copy hq hq' hx
  have horg := hq'.phase
  rwa [hphase] at horg

/-- Replies to the call are small. -/
theorem Answerable.small_of_origin (ha : Answerable cfg i q f) (hb : Based cfg i s)
    (hq : .called i q ∈ s.log) {b : List UInt8} (horg : Origin cfg s.log i q.xid b) :
    (framed b).length ≤ maxPdu := by
  cases horg with
  | executed q' w f' hq' hx hlen hf hret hexec hrep =>
    obtain rfl := hb.ledger.unique q' q hq' hq hx
    obtain rfl : f' = f := Option.some.inj (hf.symm.trans ha.registered)
    rw [hrep]
    exact ha.fits w _
  | failure q' ret hq' hx hneg hrep =>
    have hind : (failureReply cfg.mem (q'.hdr (cfg.cltNonce i)) ret).length = rpcHeaderSz :=
      length_str _
    have h4 : 4 ≤ rpcHeaderSz := by decide
    have hmax : rpcHeaderSz ≤ maxPdu := by decide
    rw [hrep, length_framed (by omega), hind]
    exact hmax

/-- The handler runs for a copy of the call, and there is a reply to store. -/
theorem Answerable.runHandler (ha : Answerable cfg i q f) (hn : cfg.cltNonce i ≠ 0) {j : Job ι}
    (hpdu : j.pdu = q.wire cfg i) (s : Sys ι Ω) (rest : List (Job ι)) (w : Ω) :
    ∃ b log, s.runHandler cfg j rest w =
      some { s with jobs := j.goto (.addReply b) :: rest, log := log } := by
  have hhdr := (parse_wire q i ha.small).1
  have hproc : (q.hdr (cfg.cltNonce i)).proc = q.proc.toInt32 := rfl
  have hnonce : (q.hdr (cfg.cltNonce i)).cltNonce ≠ 0 := hn
  simp only [Sys.runHandler, hpdu, hhdr, hproc, ha.registered, ha.returns w, if_false, hnonce,
    if_pos, ne_eq, not_false_eq_true]
  exact ⟨_, _, rfl⟩

theorem Based.findCall_eq (hb : Based cfg i s) {ca : Caller ι} (hca : ca ∈ (s.clients i).calls) :
    Sys.findCall (s.clients i).calls ca.q.xid = some ca := by
  cases hf : Sys.findCall (s.clients i).calls ca.q.xid with
  | none => exact absurd rfl (findCall_none hf ca hca)
  | some d =>
    obtain ⟨hd, hx⟩ := findCall_some hf
    rw [hb.ledger.eq_of_xid hca hd hx]

variable [DecidableEq ι]

theorem Regular.known {acts : List (Action ι Ω)} (hi : Regular cfg i acts)
    (hexec : exec (Sys.step cfg) .init acts = some s) : Known cfg i s where
  toBased := hi.based hexec
  answered := hi.reached answered_init (fun _ _ _ hb h hm => h.step hb hm) hexec
  worked := hi.reached (fun n _ e he => by cases he) (fun _ _ _ _ h hm => h.step hm) hexec

theorem Known.step (h : Known cfg i s) {x : ℕ} {a : Action ι Ω} (ha : Mends i x s a)
    (hs : s.step cfg a = some s') : Known cfg i s' := by
  have hm := Sys.move_of_step hs
  have hfew : FewCalls i s a := by
    cases a with
    | call => exact ha.elim
    | _ => trivial
  exact ⟨h.toBased.step hfew hm, h.answered.step h.toBased hm, h.worked.step hm⟩

theorem Known.dispatch (h : Known cfg i s) {k : ℕ} {w : Ω}
    (hs : s.step cfg (.dispatch k w) = some s') : Known cfg i s' :=
  h.step (x := 0) (mends_dispatch k w) hs

/-! ## The earlier copy -/

/-- The reply that is at hand is stored. -/
theorem Known.store (h : Known cfg i s) (hp : Pending s i q) {k : ℕ} {j : Job ι} {b : List UInt8}
    (hk : s.jobs[k]? = some j) (hphase : j.phase = .addReply b)
    (hhdr : Sys.header cfg j = q.hdr (cfg.cltNonce i)) (w : Ω) :
    CanReach (Sys.step cfg) (Mends i q.xid)
      (fun t => Known cfg i t ∧ Pending t i q ∧ Stored (cfg.cltNonce i) q.xid t) s := by
  have hs : s.step cfg (.dispatch k w) =
      some (s.storeReply cfg j (s.jobs.eraseIdx k) b) := by
    simp only [Sys.step, Sys.dispatch, hk, hphase]
  refine .cons (mends_dispatch k w) hs (.here ⟨h.dispatch hs, hp, fun e he hx => ?_⟩)
  have hn : (Sys.header cfg j).cltNonce = cfg.cltNonce i := by rw [hhdr]; rfl
  rw [Sys.storeReply_replyWindow hn, hhdr, h.xid_hdr (h.called_of_pending hp)] at he
  obtain ⟨d, hd, rfl⟩ := List.mem_map.1 he
  by_cases hdx : d.xid = q.xid
  · rw [if_pos hdx]
  · rw [if_neg hdx] at hx
    exact absurd hx hdx

/-- **The reply to an earlier copy can be stored**, if there is one. -/
theorem Known.stored (h : Known cfg i s) (ha : Answerable cfg i q f) (hp : Pending s i q) (w : Ω) :
    CanReach (Sys.step cfg) (Mends i q.xid)
      (fun t => Known cfg i t ∧ Pending t i q ∧ Stored (cfg.cltNonce i) q.xid t) s := by
  by_cases hst : Stored (cfg.cltNonce i) q.xid s
  · exact .here ⟨h, hp, hst⟩
  -- an entry is in progress, and a job works on it
  simp only [Stored, not_forall, Bool.not_eq_true] at hst
  obtain ⟨e, he, hx, hcb⟩ := hst
  obtain ⟨j, hj, hf⟩ := h.worked _ h.distinct.ne_zero e he hcb
  obtain ⟨hfills, hfor⟩ := Bool.and_eq_true_iff.1 hf
  have hfor := of_decide_eq_true hfor
  obtain ⟨q', hq'⟩ := h.copy hj (h.owner_of_nonce hj hfor.1)
  obtain rfl := h.eq_of_copy (h.called_of_pending hp) hq' (hfor.2.trans hx)
  obtain ⟨k, hk⟩ := List.getElem?_of_mem hj
  cases hphase : j.phase with
  | handler =>
    have hpdu : j.pdu = q'.wire cfg i := hq'.owner ▸ hq'.pdu
    obtain ⟨b, log, hrun⟩ := ha.runHandler h.distinct.ne_zero hpdu s (s.jobs.eraseIdx k) w
    have hs : s.step cfg (.dispatch k w) = some { s with
        jobs := j.goto (.addReply b) :: s.jobs.eraseIdx k, log := log } := by
      simp only [Sys.step, Sys.dispatch, hk, hphase, hrun]
    refine .cons (mends_dispatch k w) hs ?_
    exact (h.dispatch hs).store (k := 0) (j := j.goto (.addReply b)) hp rfl rfl
      hq'.hdr w
  | addReply b => exact h.store hp hk hphase hq'.hdr w
  | _ =>
    rw [hphase] at hfills
    cases hfills

/-! ## A new copy -/

/-- Client `i` waits for the reply to `q` and reads from `c`, which is
alive. -/
structure Listening (cfg : Config ι Ω) (i : ι) (q : Request) (c : Conn ι) (s : Sys ι Ω) : Prop
    extends Known cfg i s where
  call : ∃ ca ∈ (s.clients i).calls, ca.q = q ∧ ca.done = false ∧ ca.transmit = false
  owner : c.owner = i
  alive : s.dead c = false

/-- The client can give up a connection of its own. -/
theorem Known.giveUp (h : Known cfg i s) (x : ℕ) {o : Option (Conn ι)}
    (ho : ∀ d, o = some d → d.owner = i ∧ d.no < (s.clients i).nconn) :
    CanReach (Sys.step cfg) (Mends i x)
      (fun t => Known cfg i t ∧ t.clients = s.clients ∧ t.replyWindow = s.replyWindow ∧
        (∀ d, s.cltDead d = true → t.cltDead d = true) ∧ o.all t.cltDead = true) s := by
  cases o with
  | none => exact .here ⟨h, rfl, rfl, fun _ => id, rfl⟩
  | some d =>
    obtain ⟨howner, hno⟩ := ho d rfl
    have hmends : Mends i x s (.dieClient d) := howner
    have hs : s.step cfg (.dieClient d) =
        some { s with cltDead := Function.update s.cltDead d true } :=
      if_pos (howner ▸ hno)
    refine .cons hmends hs (.here ⟨h.step hmends hs, rfl, rfl, fun e he => ?_, ?_⟩)
    · by_cases hed : e = d
      · simp [hed]
      · simpa [hed] using he
    · simp

/-- The thread of the call transmits, on a fresh connection. -/
theorem Known.transmit (h : Known cfg i s) {ca : Caller ι} (hca : ca ∈ (s.clients i).calls)
    (hdone : ca.done = false) (htr : ca.transmit = true)
    (hchan : (s.clients i).chan.all s.cltDead = true) :
    CanReach (Sys.step cfg) (Mends i ca.q.xid)
      (fun t => ∃ c, Listening cfg i ca.q c t ∧ t.replyWindow = s.replyWindow ∧
        t.toSrv[0]? = some (c, ca.q.wire cfg i)) s := by
  have hmends : Mends i ca.q.xid s (.transmit i ca.q.xid true) := ⟨rfl, rfl, rfl⟩
  have hfresh : s.dead ⟨i, (s.clients i).nconn⟩ = false := by
    refine Bool.eq_false_of_not_eq_true fun hd => ?_
    exact Nat.lt_irrefl _ (h.made _ hd)
  have hwire : s.onWire ⟨i, (s.clients i).nconn⟩ (ca.q.marshalled cfg.mem (cfg.cltNonce i)).str =
      [(⟨i, (s.clients i).nconn⟩, ca.q.wire cfg i)] := by
    have hnot : (s.cltDead ⟨i, (s.clients i).nconn⟩ || s.srvDead ⟨i, (s.clients i).nconn⟩) =
        false := hfresh
    rw [Sys.onWire, hnot, if_neg Bool.false_ne_true]
    rfl
  obtain ⟨s', hs, hs'⟩ : ∃ s', s.step cfg (.transmit i ca.q.xid true) = some s' ∧
      s' = { s.setClient i { s.clients i with
          chan := some ⟨i, (s.clients i).nconn⟩, nconn := (s.clients i).nconn + 1,
          calls := Sys.setCall (s.clients i).calls ca.q.xid fun ca =>
            { ca with ch := some ⟨i, (s.clients i).nconn⟩, transmit := false } } with
        toSrv := (⟨i, (s.clients i).nconn⟩, ca.q.wire cfg i) :: s.toSrv } := by
    refine ⟨_, ?_, rfl⟩
    simp only [Sys.step, Sys.transmit, h.findCall_eq hca, htr, Sys.getRefconn, hchan, if_true,
      Bool.true_eq_false, if_false, Option.isSome_some, hwire, List.singleton_append]
  refine .cons hmends hs
    (.here ⟨⟨i, (s.clients i).nconn⟩, ⟨h.step hmends hs, ?_, rfl, ?_⟩, ?_, ?_⟩)
  · refine ⟨{ ca with ch := some ⟨i, (s.clients i).nconn⟩, transmit := false }, ?_, rfl, hdone, rfl⟩
    simp only [hs', Sys.setClient, Function.update_self]
    exact mem_setCall.2 ⟨ca, hca, (if_pos rfl).symm⟩
  · rw [hs']
    exact hfresh
  · rw [hs']
    rfl
  · rw [hs']
    rfl

/-- The server has got as far as `p` with a copy of `q` that came on `c`. -/
structure Serving (cfg : Config ι Ω) (i : ι) (q : Request) (c : Conn ι) (p : Phase ι)
    (s : Sys ι Ω) : Prop extends Listening cfg i q c s where
  front : s.jobs[0]? = some ⟨c, q.wire cfg i, p⟩

omit [DecidableEq ι] in
theorem Listening.called_mem {c : Conn ι} (h : Listening cfg i q c s) : .called i q ∈ s.log := by
  obtain ⟨ca, hca, rfl, -⟩ := h.call
  exact h.ledger.caller ca hca

omit [DecidableEq ι] in
theorem Listening.pending {c : Conn ι} (h : Listening cfg i q c s) : Pending s i q := by
  obtain ⟨ca, hca, hq, hdone, -⟩ := h.call
  exact ⟨ca, hca, hq, hdone⟩

/-- A step of the job to the phase `p'`. -/
theorem Serving.next {c : Conn ι} {p : Phase ι} (h : Serving cfg i q c p s) (p' : Phase ι) {w : Ω}
    (hs : s.step cfg (.dispatch 0 w) = some s') (hclients : s'.clients = s.clients)
    (hdead : s'.dead c = s.dead c) (hjob : s'.jobs[0]? = some ⟨c, q.wire cfg i, p'⟩) :
    Serving cfg i q c p' s' :=
  ⟨⟨h.toKnown.dispatch hs, hclients ▸ h.call, h.owner, hdead.trans h.alive⟩, hjob⟩

/-- The reply is read, and the call returns. -/
theorem Listening.read {c : Conn ι} (h : Listening cfg i q c s) {b : List UInt8}
    (hmem : s.toClt[0]? = some (c, framed b)) (hsmall : (framed b).length ≤ maxPdu)
    (horg : Origin cfg s.log i q.xid b) :
    CanReach (Sys.step cfg) (Mends i q.xid) (Returned i q) s := by
  obtain ⟨ca, hca, rfl, hdone, htr⟩ := h.call
  obtain rfl := h.owner
  have hx : (Unmarshall.ofBytes cfg.mem (framed b)).unpackReplyHeader.2.xid.toUInt32.toNat =
      ca.q.xid := by
    have hlt := h.ledger.xid_lt
    have hqx := (h.ledger.called_lt _ h.called_mem).2
    exact horg.xid_eq hsmall (by omega)
  have hok : (Unmarshall.ofBytes cfg.mem (framed b)).unpackReplyHeader.1.ok = true := by
    obtain ⟨m, ret, hind, rfl⟩ := horg.exists_packed
    exact (unpackReplyHeader_framed cfg.mem m _ hind hsmall).2.ok
  have halive : s.cltDead c = false := (Bool.or_eq_false_iff.1 h.alive).1
  have hmends : Mends c.owner ca.q.xid s (.gotPdu 0) := by
    rintro m hm
    obtain rfl := Option.some.inj (hmem.symm.trans hm)
    rfl
  obtain ⟨t, hs, hcalls⟩ : ∃ t, s.step cfg (.gotPdu 0) = some t ∧
      (t.clients c.owner).calls = Sys.setCall (s.clients c.owner).calls ca.q.xid
        (Sys.complete (Unmarshall.ofBytes cfg.mem (framed b)).unpackReplyHeader.1
          (Unmarshall.ofBytes cfg.mem (framed b)).unpackReplyHeader.2.ret) := by
    simp only [Sys.step, Sys.gotPdu, hmem, halive, hok, hx, Bool.false_eq_true, false_or,
      gt_iff_lt, Nat.not_lt.2 hsmall, if_false, Bool.true_eq_false]
    exact ⟨_, rfl, by simp only [Sys.setClient, Function.update_self]⟩
  obtain ⟨d, hd, hdq, hddone, hdtr⟩ : ∃ d ∈ (t.clients c.owner).calls,
      d.q = ca.q ∧ d.done = true ∧ d.transmit = false := by
    refine ⟨_, hcalls ▸ mem_setCall.2 ⟨ca, hca, (if_pos rfl).symm⟩, complete_q _ _ ca, ?_, ?_⟩
    · simp [Sys.complete, hdone]
    · simp [Sys.complete, hdone, htr]
  have ht := h.toKnown.step hmends hs
  -- the call leaves the loop
  have hfinish : Mends c.owner ca.q.xid t (.finish c.owner ca.q.xid) := ⟨rfl, rfl⟩
  obtain ⟨u, hs', hlog⟩ : ∃ u, t.step cfg (.finish c.owner ca.q.xid) = some u ∧
      u.log = .returned c.owner d.q (Sys.callResult d).1 (Sys.callResult d).2 :: t.log := by
    have hfind := ht.findCall_eq hd
    rw [hdq] at hfind
    simp only [Sys.step, Sys.finish, hfind, hdtr, Bool.false_eq_true, if_false]
    exact ⟨_, rfl, rfl⟩
  obtain ⟨rep, hf⟩ := ht.answered.done d hd hddone
  have hne := hf.ne_timeout hddone
  refine .cons hmends hs (.cons hfinish hs' (.here ?_))
  rw [← hdq]
  exact ⟨_, _, hlog ▸ List.mem_cons_self, hne⟩

/-- A job that sends. -/
theorem Serving.send {c : Conn ι} {st : Option RpcState} {b : List UInt8}
    (h : Serving cfg i q c (.send c st b) s) (ha : Answerable cfg i q f) (w : Ω) :
    CanReach (Sys.step cfg) (Mends i q.xid) (Returned i q) s := by
  have hj := List.mem_of_getElem? h.front
  have horg := h.origin_of_send h.called_mem hj h.owner rfl rfl
  have hsmall := ha.small_of_origin h.toBased h.called_mem horg
  have hs : s.step cfg (.dispatch 0 w) =
      some (s.send cfg ⟨c, q.wire cfg i, .send c st b⟩ (s.jobs.eraseIdx 0) c b) := by
    simp only [Sys.step, Sys.dispatch, h.front]
  have hwire : s.onWire c b = [(c, framed b)] := by
    have hnot : (s.cltDead c || s.srvDead c) = false := h.alive
    rw [Sys.onWire, hnot, if_neg Bool.false_ne_true]
  have hmsg : (s.send cfg ⟨c, q.wire cfg i, .send c st b⟩ (s.jobs.eraseIdx 0) c b).toClt[0]? =
      some (c, framed b) := by
    rw [Sys.send, hwire]
    rfl
  have ht : Listening cfg i q c (s.send cfg ⟨c, q.wire cfg i, .send c st b⟩
      (s.jobs.eraseIdx 0) c b) := ⟨h.toKnown.dispatch hs, h.call, h.owner, h.alive⟩
  have hlog := log_mono (Sys.move_of_step hs)
  exact .cons (mends_dispatch 0 w) hs (ht.read hmsg hsmall (horg.mono hlog))

/-- A job that has run the handler. The connection is alive, so that it
is chosen. -/
theorem Serving.choose {c : Conn ι} {b : List UInt8} (h : Serving cfg i q c (.choose b) s)
    (ha : Answerable cfg i q f) (w : Ω) :
    CanReach (Sys.step cfg) (Mends i q.xid) (Returned i q) s := by
  have halive : s.srvDead c = false := (Bool.or_eq_false_iff.1 h.alive).2
  have hs : s.step cfg (.dispatch 0 w) = some { s with
      jobs := ⟨c, q.wire cfg i, .send c (some .new) b⟩ :: s.jobs.eraseIdx 0 } := by
    simp only [Sys.step, Sys.dispatch, h.front, Sys.choose, halive, Bool.false_eq_true, false_and,
      if_false]
    rfl
  have ht := h.next (.send c (some .new) b) hs rfl rfl rfl
  exact .cons (mends_dispatch 0 w) hs (ht.send ha w)

theorem Serving.addReply {c : Conn ι} {b : List UInt8} (h : Serving cfg i q c (.addReply b) s)
    (ha : Answerable cfg i q f) (w : Ω) :
    CanReach (Sys.step cfg) (Mends i q.xid) (Returned i q) s := by
  have hs : s.step cfg (.dispatch 0 w) = some (s.storeReply cfg
      ⟨c, q.wire cfg i, .addReply b⟩ (s.jobs.eraseIdx 0) b) := by
    simp only [Sys.step, Sys.dispatch, h.front]
  have ht := h.next (.choose b) hs rfl rfl rfl
  exact .cons (mends_dispatch 0 w) hs (ht.choose ha w)

theorem Serving.handler {c : Conn ι} (h : Serving cfg i q c .handler s)
    (ha : Answerable cfg i q f) (w : Ω) :
    CanReach (Sys.step cfg) (Mends i q.xid) (Returned i q) s := by
  obtain ⟨b, log, hrun⟩ := ha.runHandler h.distinct.ne_zero
    (j := ⟨c, q.wire cfg i, .handler⟩) rfl s (s.jobs.eraseIdx 0) w
  have hs : s.step cfg (.dispatch 0 w) = some { s with
      jobs := ⟨c, q.wire cfg i, .addReply b⟩ :: s.jobs.eraseIdx 0, log := log } := by
    simp only [Sys.step, Sys.dispatch, h.front, hrun]
    rfl
  have ht := h.next (.addReply b) hs rfl rfl rfl
  exact .cons (mends_dispatch 0 w) hs (ht.addReply ha w)

/-- **A copy is not dropped** when no other is in progress. -/
theorem Serving.check {c : Conn ι} (h : Serving cfg i q c .check s)
    (hst : Stored (cfg.cltNonce i) q.xid s) (ha : Answerable cfg i q f) (w : Ω) :
    CanReach (Sys.step cfg) (Mends i q.xid) (Returned i q) s := by
  have hj := List.mem_of_getElem? h.front
  have hs : s.step cfg (.dispatch 0 w) =
      some (s.check cfg ⟨c, q.wire cfg i, .check⟩ (s.jobs.eraseIdx 0)) := by
    simp only [Sys.step, Sys.dispatch, h.front]
  obtain ⟨q', hq'⟩ := h.copy hj h.owner
  have hx : (Sys.header cfg ⟨c, q.wire cfg i, .check⟩).xid.toUInt32.toNat = q.xid := by
    rw [h.header_of_pdu hj rfl]
    exact h.xid_hdr h.called_mem _
  obtain rfl := h.eq_of_copy h.called_mem hq' hx
  obtain ⟨r, hc, heq⟩ := hq'.classified (s.jobs.eraseIdx 0)
  rw [heq] at hs
  refine .cons (mends_dispatch 0 w) hs ?_
  cases hc with
  | new hno =>
    have ht := h.next .handler hs rfl rfl rfl
    exact ht.handler ha w
  | inprogress e he hex hcb hlt =>
    rw [hst e he hex] at hcb
    cases hcb
  | done e he hex hcb hlt =>
    have ht := h.next (.send c (some .done) e.buf) hs rfl rfl rfl
    exact ht.send ha w
  | forgotten hle =>
    have := hq'.lt
    omega

/-- The header is for this server, and then the procedure is there, or it
is for another, and then the server says so. -/
theorem Serving.queued {c : Conn ι} (h : Serving cfg i q c .queued s)
    (hst : Stored (cfg.cltNonce i) q.xid s) (ha : Answerable cfg i q f) (w : Ω) :
    CanReach (Sys.step cfg) (Mends i q.xid) (Returned i q) s := by
  have hs : s.step cfg (.dispatch 0 w) =
      some (s.start cfg ⟨c, q.wire cfg i, .queued⟩ (s.jobs.eraseIdx 0)) := by
    simp only [Sys.step, Sys.dispatch, h.front]
  obtain ⟨hhdr, hpast⟩ := parse_wire q i ha.small
  have hok : (Sys.parse cfg (q.wire cfg i)).1.ok = true := hpast.ok
  have hproc : (q.hdr (cfg.cltNonce i)).proc = q.proc.toInt32 := rfl
  have hnonce : (q.hdr (cfg.cltNonce i)).cltNonce ≠ 0 := h.distinct.ne_zero
  simp only [Sys.start, hhdr, hok, hproc, ha.registered, Option.isNone_some, Bool.true_eq_false,
    Bool.false_eq_true, if_false] at hs
  by_cases hold : (q.hdr (cfg.cltNonce i)).srvNonce ≠ 0 ∧
      (q.hdr (cfg.cltNonce i)).srvNonce ≠ cfg.nonce
  · rw [if_pos hold] at hs
    have ht := h.next _ hs rfl rfl rfl
    exact .cons (mends_dispatch 0 w) hs (ht.send ha w)
  · rw [if_neg hold, if_pos hnonce] at hs
    have ht := h.next .check hs rfl rfl rfl
    exact .cons (mends_dispatch 0 w) hs (ht.check hst ha w)

end

end Rpc

end Yfs
