import Yfs.Rpc.Lifetime

/-!
# Replies that are lost

A call that waits on a live connection must get its reply there. The
server drops a copy that arrives while an earlier one is being worked on,
and the reply then goes out on the connection of the earlier copy, unless
the server has found that one dead. So the copy on the connection the
client waits on may be dropped, and the reply sent on another
(`not_replySent_lostRun`). Where no reply is sent past the client
(`Aimed`), none is lost: `OnWay` says where the reply to a pending call
will come from.
-/

namespace Yfs

open Common

namespace Rpc

variable {ι Ω : Type}

/-- The dispatch was classified as `NEW`, and its reply is not sent yet. -/
def Phase.works : Phase ι → Bool
  | .handler => true
  | .addReply _ => true
  | .choose _ => true
  | .send _ (some .new) _ => true
  | _ => false

/-- The dispatch is not classified yet, or sends a stored reply on `L`. -/
def Phase.Covers (p : Phase ι) (L : Conn ι) : Prop :=
  p = .queued ∨ p = .check ∨ ∃ b, p = .send L (some .done) b

/-- The server has a copy of the request `q` on the connection `L` still
to answer, or has answered on it. -/
inductive Covered (cfg : Config ι Ω) (s : Sys ι Ω) (i : ι) (q : Request) (L : Conn ι) : Prop
  | wire (h : (L, q.wire cfg i) ∈ s.toSrv)
  | job (d : Job ι) (hd : d ∈ s.jobs) (hconn : d.conn = L) (hpdu : d.pdu = q.wire cfg i)
      (hp : d.phase.Covers L)
  | sent (h : .sent L (q.hdr (cfg.cltNonce i)) ∈ s.log)

/-- The call `q` of client `i` is pending, and the connection it was last
transmitted on is `L`, alive at both ends. -/
def Waits (s : Sys ι Ω) (i : ι) (q : Request) (L : Conn ι) : Prop :=
  (∃ ca ∈ (s.clients i).calls, ca.q = q ∧ ca.done = false ∧ ca.ch = some L) ∧ s.dead L = false

/-- No copy of the request `q` of client `i`, and no reply to it, is in
flight, queued or being dispatched. -/
structure Quiet (cfg : Config ι Ω) (s : Sys ι Ω) (i : ι) (q : Request) : Prop where
  toSrv : ∀ m ∈ s.toSrv, m.1.owner = i → m.2 ≠ q.wire cfg i
  jobs : ∀ j ∈ s.jobs, j.conn.owner = i → j.pdu ≠ q.wire cfg i
  toClt : ∀ m ∈ s.toClt, m.1.owner = i →
    (Unmarshall.ofBytes cfg.mem m.2).unpackReplyHeader.2.xid.toUInt32.toNat ≠ q.xid

/-- A reply that the `NEW` branch sends to a call that waits on `L` goes
out on `L`, or the server has a copy on `L` to answer as well. -/
def Aimed (cfg : Config ι Ω) (i : ι) (s : Sys ι Ω) (a : Action ι Ω) : Prop :=
  ∀ j, s.picked a = some j → ∀ c b, j.phase = .send c (some .new) b →
    ∀ q L, j.conn.owner = i → j.pdu = q.wire cfg i → Waits s i q L →
      c = L ∨ Covered cfg s i q L

/-- Where the reply to the request `q` on the connection `L` will come
from, if it is not refused. -/
inductive OnWay (cfg : Config ι Ω) (s : Sys ι Ω) (i : ι) (q : Request) (L : Conn ι) : Prop
  | covered (h : Covered cfg s i q L)
  | works (d : Job ι) (hd : d ∈ s.jobs) (howner : d.conn.owner = i) (hpdu : d.pdu = q.wire cfg i)
      (hp : d.phase.works = true)
  | refused (h : Sys.Refused cfg (q.hdr (cfg.cltNonce i)))

/-- `dispatch` has got past the tests on the header. -/
def Phase.accepted : Phase ι → Bool
  | .queued => false
  | .send _ none _ => false
  | _ => true

theorem Phase.works_of_fills {p : Phase ι} (h : p.fills = true) : p.works = true := by
  cases p with
  | handler => rfl
  | addReply b => rfl
  | _ => cases h

/-- The invariant. -/
structure Delivering (cfg : Config ι Ω) (i : ι) (s : Sys ι Ω) : Prop where
  accepted : ∀ j ∈ s.jobs, j.phase.accepted = true → ¬ Sys.Refused cfg (Sys.header cfg j)
  ran : ∀ pdu w ret b, .executed pdu w ret b ∈ s.log →
    pdu.length ≤ maxPdu ∧ ¬ Sys.Refused cfg (Sys.parse cfg pdu).2
  /-- An entry in progress is being worked on. -/
  filling : ∀ e ∈ s.replyWindow (cfg.cltNonce i), e.cbPresent = false →
    ∃ d ∈ s.jobs, Job.fills cfg (cfg.cltNonce i) e.xid d = true
  onWay : ∀ q L, Waits s i q L → OnWay cfg s i q L

variable {cfg : Config ι Ω} {i : ι} {s s' : Sys ι Ω} {a : Action ι Ω}

theorem Based.owner_of_waits (hb : Based cfg i s) {q : Request} {L : Conn ι} (h : Waits s i q L) :
    L.owner = i := by
  obtain ⟨⟨ca, hca, -, -, hL⟩, -⟩ := h
  exact ((hb.own i).ch ca hca L hL).1

section

variable [DecidableEq ι]

theorem Delivering.accepted_step (h : Delivering cfg i s) (hm : Sys.Move cfg s a s') :
    ∀ j ∈ s'.jobs, j.phase.accepted = true → ¬ Sys.Refused cfg (Sys.header cfg j) := by
  have hrest : ∀ {j : Job ι} {rest : List (Job ι)}, s.jobs.Perm (j :: rest) → ∀ d ∈ rest,
      d.phase.accepted = true → ¬ Sys.Refused cfg (Sys.header cfg d) :=
    fun hperm d hd => h.accepted d ((mem_of_pick hperm).2 (.inr hd))
  -- a job that goes on was accepted, or is not accepted yet
  have hgoto : ∀ {j : Job ι} {rest : List (Job ι)} {p : Phase ι}, s.jobs.Perm (j :: rest) →
      (p.accepted = true → ¬ Sys.Refused cfg (Sys.header cfg j)) → ∀ d ∈ j.goto p :: rest,
        d.phase.accepted = true → ¬ Sys.Refused cfg (Sys.header cfg d) := by
    intro j rest p hperm hp d hd
    rcases List.mem_cons.1 hd with rfl | hd
    · exact hp
    · exact hrest hperm d hd
  have hself : ∀ {j : Job ι} {rest : List (Job ι)}, s.jobs.Perm (j :: rest) →
      j.phase.accepted = true → ¬ Sys.Refused cfg (Sys.header cfg j) :=
    fun hperm => h.accepted _ ((mem_of_pick hperm).2 (.inl rfl))
  cases hm with
  | recv k c b rest hperm hlen =>
    intro d hd hacc
    rcases List.mem_cons.1 hd with rfl | hd
    · cases hacc
    · exact h.accepted d hd hacc
  | reject k w j rest hpick hperm => exact hrest hperm
  | oldsrv k w j rest hpick hperm => exact hgoto hperm fun hp => by cases hp
  | accept k w j rest hpick hperm hphase hok => exact hgoto hperm fun _ => hok
  | anonymous k w j rest hpick hperm hphase hok => exact hgoto hperm fun _ => hok
  | check k w j rest hpick hperm hphase =>
    intro d hd
    rcases jobs_check j rest d hd with hd | ⟨p, rfl, -⟩
    · exact hrest hperm d hd
    · rw [Sys.header_goto]
      exact fun _ => hself hperm (by rw [hphase]; rfl)
  | handler k w j rest f b hpick hperm hphase =>
    exact hgoto hperm fun _ => hself hperm (by rw [hphase]; rfl)
  | addReply k w j rest b hpick hperm hphase =>
    exact hgoto hperm fun _ => hself hperm (by rw [hphase]; rfl)
  | choose k w j rest b c hpick hperm hphase =>
    exact hgoto hperm fun _ => hself hperm (by rw [hphase]; rfl)
  | send k w j rest c st b hpick hperm => exact hrest hperm
  | _ => exact h.accepted

theorem Delivering.ran_step (hb : Based cfg i s) (h : Delivering cfg i s)
    (hm : Sys.Move cfg s a s') : ∀ pdu w ret b, .executed pdu w ret b ∈ s'.log →
      pdu.length ≤ maxPdu ∧ ¬ Sys.Refused cfg (Sys.parse cfg pdu).2 := by
  intro pdu w ret b hmem
  rcases Sys.log_move hm with heq | ⟨e, heq, he⟩
  · exact h.ran pdu w ret b (heq ▸ hmem)
  · rw [heq] at hmem
    rcases List.mem_cons.1 hmem with rfl | hmem
    · obtain ⟨j, hj, rfl, hphase⟩ := he
      obtain ⟨q, hq⟩ := hb.job j hj
      exact ⟨hq.small, h.accepted j hj (by rw [hphase]; rfl)⟩
    · exact h.ran pdu w ret b hmem

/-! ## Entries in progress -/

omit [DecidableEq ι] in
/-- A job that fills an entry is in the list still if it is not the one
that moved, or moved and still fills it. -/
theorem exists_fills_of_pick {j : Job ι} {rest jobs : List (Job ι)} {n : UInt32} {x : ℕ}
    (hperm : s.jobs.Perm (j :: rest)) (h : ∃ d ∈ s.jobs, Job.fills cfg n x d = true)
    (hrest : ∀ d ∈ rest, d ∈ jobs)
    (hself : Job.fills cfg n x j = true → ∃ d ∈ jobs, Job.fills cfg n x d = true) :
    ∃ d ∈ jobs, Job.fills cfg n x d = true := by
  obtain ⟨d, hd, hf⟩ := h
  rcases (mem_of_pick hperm).1 hd with rfl | hd
  · exact hself hf
  · exact ⟨d, hrest d hd, hf⟩

omit [DecidableEq ι] in
theorem Job.fills_eq_false {j : Job ι} {n : UInt32} {x : ℕ} (hp : j.phase.fills = false) :
    ¬ Job.fills cfg n x j = true := by
  rw [Job.fills, hp]
  exact Bool.false_ne_true

omit [DecidableEq ι] in
/-- The entries in progress after a request was classified. -/
theorem Delivering.filling_check (h : Delivering cfg i s) {j : Job ι} {rest : List (Job ι)}
    (hperm : s.jobs.Perm (j :: rest)) (hphase : j.phase = .check) :
    ∀ e ∈ (s.check cfg j rest).replyWindow (cfg.cltNonce i), e.cbPresent = false →
      ∃ d ∈ (s.check cfg j rest).jobs, Job.fills cfg (cfg.cltNonce i) e.xid d = true := by
  intro e he hp
  have hold : e ∈ s.replyWindow (cfg.cltNonce i) →
      ∃ d ∈ (s.check cfg j rest).jobs, Job.fills cfg (cfg.cltNonce i) e.xid d = true := fun he =>
    exists_fills_of_pick hperm (h.filling e he hp) (fun d hd => mem_check_jobs hd)
      fun hf => absurd hf (Job.fills_eq_false (by rw [hphase]; rfl))
  by_cases hn : (Sys.header cfg j).cltNonce = cfg.cltNonce i
  · obtain ⟨r, hc, heq⟩ := Sys.classified_check cfg s j rest
    have hw : e ∈ r.1 := by
      rw [heq] at he
      dsimp only at he
      rwa [if_pos hn.symm] at he
    rw [hn] at hc
    cases hc with
    | new hno =>
      rcases List.mem_append.1 hw with hw | hw
      · exact hold (List.mem_filter.1 hw).1
      · -- its own entry, which it will fill
        obtain rfl := List.mem_singleton.1 hw
        refine ⟨j.goto .handler, by rw [heq]; exact List.mem_cons_self, ?_⟩
        exact decide_eq_true (p := (Sys.header cfg j).IsFor _ _) ⟨hn, rfl⟩
    | inprogress => exact hold (List.mem_filter.1 hw).1
    | done => exact hold (List.mem_filter.1 hw).1
    | forgotten => exact hold (List.mem_filter.1 hw).1
  · rw [Sys.check_replyWindow_of_ne hn] at he
    exact hold he

theorem Delivering.filling_step (hb : Based cfg i s) (h : Delivering cfg i s)
    (hm : Sys.Move cfg s a s') : ∀ e ∈ s'.replyWindow (cfg.cltNonce i), e.cbPresent = false →
      ∃ d ∈ s'.jobs, Job.fills cfg (cfg.cltNonce i) e.xid d = true := by
  -- the job that moved fills no entry
  have hrest : ∀ {j : Job ι} {rest jobs : List (Job ι)}, s.jobs.Perm (j :: rest) →
      (∀ d ∈ rest, d ∈ jobs) → j.phase.fills = false →
      ∀ e ∈ s.replyWindow (cfg.cltNonce i), e.cbPresent = false →
        ∃ d ∈ jobs, Job.fills cfg (cfg.cltNonce i) e.xid d = true :=
    fun hperm hsub hp e he hcb => exists_fills_of_pick hperm (h.filling e he hcb) hsub
      fun hf => absurd hf (Job.fills_eq_false hp)
  cases hm with
  | recv k c b rest hperm hlen =>
    intro e he hp
    obtain ⟨d, hd, hf⟩ := h.filling e he hp
    exact ⟨d, List.mem_cons_of_mem _ hd, hf⟩
  | reject k w j rest hpick hperm hphase =>
    exact hrest hperm (fun _ => id) (by rw [hphase]; rfl)
  | oldsrv k w j rest hpick hperm hphase =>
    exact hrest hperm (fun _ => List.mem_cons_of_mem _) (by rw [hphase]; rfl)
  | accept k w j rest hpick hperm hphase =>
    exact hrest hperm (fun _ => List.mem_cons_of_mem _) (by rw [hphase]; rfl)
  | anonymous k w j rest hpick hperm hphase =>
    exact hrest hperm (fun _ => List.mem_cons_of_mem _) (by rw [hphase]; rfl)
  | check k w j rest hpick hperm hphase => exact h.filling_check hperm hphase
  | handler k w j rest f b hpick hperm hphase =>
    intro e he hp
    refine exists_fills_of_pick hperm (h.filling e he hp) (fun _ => List.mem_cons_of_mem _)
      fun hf => ⟨_, List.mem_cons_self, ?_⟩
    have hx := of_decide_eq_true (Bool.and_eq_true_iff.1 hf).2
    rw [if_pos (hx.1 ▸ hb.distinct.ne_zero)]
    exact decide_eq_true hx
  | addReply k w j rest b hpick hperm hphase =>
    intro e he hp
    by_cases hn : (Sys.header cfg j).cltNonce = cfg.cltNonce i
    · rw [Sys.storeReply_replyWindow hn] at he
      obtain ⟨d, hd, rfl⟩ := List.mem_map.1 he
      by_cases hx : d.xid = (Sys.header cfg j).xid.toUInt32.toNat
      · rw [if_pos hx] at hp
        cases hp
      · rw [if_neg hx] at hp ⊢
        refine exists_fills_of_pick hperm (h.filling d hd hp) (fun _ => List.mem_cons_of_mem _)
          fun hf => ?_
        exact absurd (of_decide_eq_true (Bool.and_eq_true_iff.1 hf).2).2.symm hx
    · rw [Sys.storeReply_replyWindow_of_ne hn] at he
      refine exists_fills_of_pick hperm (h.filling e he hp) (fun _ => List.mem_cons_of_mem _)
        fun hf => ?_
      exact absurd (of_decide_eq_true (Bool.and_eq_true_iff.1 hf).2).1 hn
  | choose k w j rest b c hpick hperm hphase =>
    exact hrest hperm (fun _ => List.mem_cons_of_mem _) (by rw [hphase]; rfl)
  | send k w j rest c st b hpick hperm hphase =>
    exact hrest hperm (fun _ => id) (by rw [hphase]; rfl)
  | _ => exact h.filling

/-! ## Replies on their way -/

/-- A call waits as it did before, unless it was just transmitted. -/
theorem Based.waits_step (hb : Based cfg i s) (hm : Sys.Move cfg s a s') {q : Request} {L : Conn ι}
    (h : Waits s' i q L) :
    Waits s i q L ∨ (L, q.wire cfg i) ∈ s'.toSrv := by
  obtain ⟨⟨ca, hca, hq, hdone, hL⟩, halive⟩ := h
  -- the client `k` moved, and changed no call in `calls`
  have hkeep : ∀ k c, (s.setClient k c).clients i = s'.clients i →
      (∀ ca ∈ c.calls, ca.done = false → ca.ch = some L →
        ∃ d ∈ (s.clients k).calls, d.q = ca.q ∧ d.done = false ∧ d.ch = some L) →
      ∃ ca ∈ (s.clients i).calls, ca.q = q ∧ ca.done = false ∧ ca.ch = some L := by
    intro k c heq hc
    rw [← heq] at hca
    by_cases hk : k = i
    · subst hk
      simp only [Sys.setClient, Function.update_self] at hca
      obtain ⟨d, hd, hdq, hdd, hdL⟩ := hc ca hca hdone hL
      exact ⟨d, hd, hdq.trans hq, hdd, hdL⟩
    · simp only [Sys.setClient, Function.update_of_ne (Ne.symm hk)] at hca
      exact ⟨ca, hca, hq, hdone, hL⟩
  cases hm with
  | call k bind proc ts args ret ca' hxid hrep hd hch =>
    refine .inl ⟨hkeep k _ rfl fun d hd _ hdL => ?_, halive⟩
    rcases List.mem_cons.1 hd with rfl | hd
    · rw [hch] at hdL
      cases hdL
    · exact ⟨d, hd, rfl, by assumption, hdL⟩
  | transmit k xid connect ca' r ch msgs hca' htr hr hch hmsgs =>
    by_cases hk : k = i
    · subst hk
      simp only [Sys.setClient, Function.update_self] at hca
      obtain ⟨d, hd, rfl⟩ := mem_setCall.1 hca
      by_cases hx : d.q.xid = xid
      · -- the message is on the wire, as the connection is alive
        obtain ⟨hmem, hx'⟩ := findCall_some hca'
        obtain rfl := hb.ledger.eq_of_xid hmem hd (hx.trans hx'.symm)
        rw [if_pos hx] at hq hL
        obtain rfl : ch = some L := hL
        obtain rfl : d.q = q := hq
        have hnot : (s.cltDead L || s.srvDead L) = false := halive
        refine .inr (List.mem_append_left _ ?_)
        rw [hmsgs, Option.elim_some, Sys.onWire, hnot, if_neg Bool.false_ne_true]
        exact List.mem_cons_self
      · rw [if_neg hx] at hq hdone hL
        exact .inl ⟨⟨d, hd, hq, hdone, hL⟩, halive⟩
    · simp only [Sys.setClient, Function.update_of_ne (Ne.symm hk)] at hca
      exact .inl ⟨⟨ca, hca, hq, hdone, hL⟩, halive⟩
  | wake k xid =>
    refine .inl ⟨hkeep k _ rfl fun d hd hdd hdL => ?_, halive⟩
    obtain ⟨e, he, rfl⟩ := mem_setCall.1 hd
    split at hdd
    · rename_i hx
      rw [if_pos hx] at hdL ⊢
      exact ⟨e, he, rfl, hdd, hdL⟩
    · rename_i hx
      rw [if_neg hx] at hdL ⊢
      exact ⟨e, he, rfl, hdd, hdL⟩
  | finish k xid =>
    exact .inl ⟨hkeep k _ rfl fun d hd hdd hdL =>
      ⟨d, (List.mem_filter.1 hd).1, rfl, hdd, hdL⟩, halive⟩
  | bound k => exact .inl ⟨hkeep k _ rfl fun d hd hdd hdL => ⟨d, hd, rfl, hdd, hdL⟩, halive⟩
  | gotPdu k c b rest log xid hperm hlen hok hxid hlog =>
    refine .inl ⟨hkeep c.owner _ rfl fun d hd hdd hdL => ?_, halive⟩
    obtain ⟨e, he, rfl⟩ := mem_setCall.1 hd
    split at hdd
    · -- the call is done now
      unfold Sys.complete at hdd
      split at hdd
      · rename_i hx
        rw [hx] at hdd
        cases hdd
      · cases hdd
    · rename_i hx
      rw [if_neg hx] at hdL ⊢
      exact ⟨e, he, rfl, hdd, hdL⟩
  | net _ toSrv toClt cltDead srvDead hsrv hclt hdead =>
    refine .inl ⟨⟨ca, hca, hq, hdone, hL⟩, ?_⟩
    by_contra hd
    have := hdead L (Bool.eq_true_of_not_eq_false hd)
    exact Bool.false_ne_true (halive.symm.trans this)
  | _ => exact .inl ⟨⟨ca, hca, hq, hdone, hL⟩, halive⟩

omit [DecidableEq ι] in
theorem Covered.mono {q : Request} {L : Conn ι} (h : Covered cfg s i q L)
    (htoSrv : (L, q.wire cfg i) ∈ s.toSrv → (L, q.wire cfg i) ∈ s'.toSrv)
    (hjobs : ∀ d ∈ s.jobs, d.phase.Covers L → d ∈ s'.jobs) (hlog : ∀ e ∈ s.log, e ∈ s'.log) :
    Covered cfg s' i q L := by
  cases h with
  | wire hm => exact .wire (htoSrv hm)
  | job d hd hconn hpdu hp => exact .job d (hjobs d hd hp) hconn hpdu hp
  | sent hs => exact .sent (hlog _ hs)

omit [DecidableEq ι] in
/-- A step that takes no message or job away. -/
theorem OnWay.mono {q : Request} {L : Conn ι} (h : OnWay cfg s i q L)
    (htoSrv : (L, q.wire cfg i) ∈ s.toSrv → (L, q.wire cfg i) ∈ s'.toSrv)
    (hjobs : ∀ d ∈ s.jobs, d ∈ s'.jobs) (hlog : ∀ e ∈ s.log, e ∈ s'.log) : OnWay cfg s' i q L := by
  cases h with
  | covered hc => exact .covered (hc.mono htoSrv (fun d hd _ => hjobs d hd) hlog)
  | works d hd howner hpdu hp => exact .works d (hjobs d hd) howner hpdu hp
  | refused hr => exact .refused hr

omit [DecidableEq ι] in
/-- A step of the job `j`, where it matters that `j` was the one the reply
would come from. -/
theorem OnWay.of_pick {q : Request} {L : Conn ι} {j : Job ι} {rest : List (Job ι)}
    (h : OnWay cfg s i q L) (hperm : s.jobs.Perm (j :: rest)) (htoSrv : s'.toSrv = s.toSrv)
    (hlog : ∀ e ∈ s.log, e ∈ s'.log) (hrest : ∀ d ∈ rest, d ∈ s'.jobs)
    (hcovers : j.conn = L → j.pdu = q.wire cfg i → j.phase.Covers L → OnWay cfg s' i q L)
    (hworks : j.conn.owner = i → j.pdu = q.wire cfg i → j.phase.works = true →
      OnWay cfg s' i q L) : OnWay cfg s' i q L := by
  cases h with
  | covered hc =>
    cases hc with
    | wire hm => exact .covered (.wire (htoSrv ▸ hm))
    | job d hd hconn hpdu hp =>
      rcases (mem_of_pick hperm).1 hd with rfl | hd
      · exact hcovers hconn hpdu hp
      · exact .covered (.job d (hrest d hd) hconn hpdu hp)
    | sent hs => exact .covered (.sent (hlog _ hs))
  | works d hd howner hpdu hp =>
    rcases (mem_of_pick hperm).1 hd with rfl | hd
    · exact hworks howner hpdu hp
    · exact .works d (hrest d hd) howner hpdu hp
  | refused hr => exact .refused hr

omit [DecidableEq ι] in
/-- The same, for a job that is not classified yet. -/
theorem OnWay.of_unclassified {q : Request} {L : Conn ι} {j : Job ι} {rest : List (Job ι)}
    (h : OnWay cfg s i q L) (hperm : s.jobs.Perm (j :: rest)) (htoSrv : s'.toSrv = s.toSrv)
    (hlog : ∀ e ∈ s.log, e ∈ s'.log) (hrest : ∀ d ∈ rest, d ∈ s'.jobs)
    (hphase : j.phase = .queued ∨ j.phase = .check)
    (hcopy : j.conn = L → j.pdu = q.wire cfg i → OnWay cfg s' i q L) : OnWay cfg s' i q L := by
  refine h.of_pick hperm htoSrv hlog hrest (fun hconn hpdu _ => hcopy hconn hpdu) fun _ _ hp => ?_
  rcases hphase with hphase | hphase
  · rw [hphase] at hp
    cases hp
  · rw [hphase] at hp
    cases hp

omit [DecidableEq ι] in
/-- The same, for a job that makes the reply and goes on with it. -/
theorem OnWay.of_working {q : Request} {L : Conn ι} {j : Job ι} {rest : List (Job ι)} {p : Phase ι}
    (h : OnWay cfg s i q L) (hperm : s.jobs.Perm (j :: rest)) (htoSrv : s'.toSrv = s.toSrv)
    (hlog : ∀ e ∈ s.log, e ∈ s'.log) (hjobs : s'.jobs = j.goto p :: rest)
    (hold : ¬ j.phase.Covers L) (hnew : p.works = true) : OnWay cfg s' i q L := by
  refine h.of_pick hperm htoSrv hlog (fun d hd => ?_) (fun _ _ hc => absurd hc hold)
    fun howner hpdu _ => .works (j.goto p) ?_ howner hpdu hnew
  · rw [hjobs]
    exact List.mem_cons_of_mem _ hd
  · rw [hjobs]
    exact List.mem_cons_self

omit [DecidableEq ι] in
/-- The header of a job that is a copy of `q`. -/
theorem Based.header_of_pdu (hb : Based cfg i s) {j : Job ι} (hj : j ∈ s.jobs) {q : Request}
    (hpdu : j.pdu = q.wire cfg i) : Sys.header cfg j = q.hdr (cfg.cltNonce i) := by
  obtain ⟨q', hq'⟩ := hb.job j hj
  rw [Sys.header, hpdu]
  exact (parse_wire q i (hpdu ▸ hq'.small)).1

omit [DecidableEq ι] in
/-- A copy on `L` is classified. -/
theorem Delivering.onWay_check (hb : Based cfg i s) (h : Delivering cfg i s) {q : Request}
    {L : Conn ι} {j : Job ι} {rest : List (Job ι)} (hperm : s.jobs.Perm (j :: rest))
    (hphase : j.phase = .check) (hLi : L.owner = i) (hconn : j.conn = L)
    (hpdu : j.pdu = q.wire cfg i) : OnWay cfg (s.check cfg j rest) i q L := by
  have hj : j ∈ s.jobs := (mem_of_pick hperm).2 (.inl rfl)
  obtain ⟨q', hq'⟩ := hb.copy hj (hconn ▸ hLi)
  obtain ⟨r, hc, heq⟩ := hq'.classified rest
  cases hc with
  | new hno =>
    refine .works (j.goto .handler) ?_ (hconn ▸ hLi) hpdu rfl
    rw [heq]
    exact List.mem_cons_self
  | inprogress e he hx hp hlt =>
    -- the copy is dropped, and another is worked on
    obtain ⟨d, hd, hf⟩ := h.filling e he hp
    obtain ⟨hfills, hfor⟩ := Bool.and_eq_true_iff.1 hf
    have hfor := of_decide_eq_true hfor
    obtain ⟨q'', hq''⟩ := hb.copy hd (hb.owner_of_nonce hd hfor.1)
    have hsame : q'' = q' := hb.ledger.unique q'' q' hq''.called_mem hq'.called_mem
      (hq''.xid_toNat.symm.trans (hfor.2.trans hx))
    have hrest : d ∈ rest := by
      refine ((mem_of_pick hperm).1 hd).resolve_left ?_
      rintro rfl
      rw [hphase] at hfills
      cases hfills
    refine .works d (mem_check_jobs hrest) hq''.owner ?_ (Phase.works_of_fills hfills)
    rw [hq''.pdu, hq''.owner, hsame, ← hpdu, hq'.pdu, hq'.owner]
  | done e he hx hp hlt =>
    refine .covered (.job (j.goto (.send j.conn (some .done) e.buf)) ?_ hconn hpdu
      (.inr (.inr ⟨e.buf, by rw [hconn]; rfl⟩)))
    rw [heq]
    exact List.mem_cons_self
  | forgotten hle =>
    have := hq'.lt
    omega

omit [DecidableEq ι] in
/-- A reply is sent on `L`, which is alive. -/
theorem Based.sent_send (hb : Based cfg i s) {q : Request} {L : Conn ι} {j : Job ι}
    (hj : j ∈ s.jobs) (rest : List (Job ι)) (b : List UInt8) (hpdu : j.pdu = q.wire cfg i)
    (halive : s.dead L = false) :
    .sent L (q.hdr (cfg.cltNonce i)) ∈ (s.send cfg j rest L b).log := by
  have hnot : (s.cltDead L || s.srvDead L) = false := halive
  have hwire : s.onWire L b = [(L, framed b)] := by
    rw [Sys.onWire, hnot, if_neg Bool.false_ne_true]
  simp only [Sys.send, hwire]
  rw [if_neg (List.cons_ne_nil _ _), ← hb.header_of_pdu hj hpdu]
  exact List.mem_cons_self

omit [DecidableEq ι] in
/-- A reply goes out: one stored for the call on `L`, the one the handler
made as it is aimed, and any other past the call. -/
theorem OnWay.send {q : Request} {L : Conn ι} (h : OnWay cfg s i q L) (hb : Based cfg i s) {k : ℕ}
    {w : Ω} {j : Job ι} {rest : List (Job ι)} {c : Conn ι} {st : Option RpcState} {b : List UInt8}
    (hpick : s.jobs[k]? = some j) (hperm : s.jobs.Perm (j :: rest))
    (hphase : j.phase = .send c st b) (haim : Aimed cfg i s (.dispatch k w)) (hw : Waits s i q L)
    (hlog : ∀ e ∈ s.log, e ∈ (s.send cfg j rest c b).log) :
    OnWay cfg (s.send cfg j rest c b) i q L := by
  have hj : j ∈ s.jobs := (mem_of_pick hperm).2 (.inl rfl)
  refine h.of_pick hperm rfl hlog (fun _ => id) (fun _ hpdu hc => ?_) fun howner hpdu hwk => ?_
  · -- a stored reply goes out on `L`
    rw [hphase] at hc
    obtain ⟨b', hb'⟩ : ∃ b', Phase.send c st b = .send L (some .done) b' := by
      rcases hc with hc | hc | hc
      · cases hc
      · cases hc
      · exact hc
    cases hb'
    exact .covered (.sent (hb.sent_send hj rest b hpdu hw.2))
  · -- the reply the handler made goes out, on `L` or past the client
    have hst : st = some .new := by
      rw [hphase] at hwk
      cases st with
      | none => cases hwk
      | some st => cases st <;> first | rfl | cases hwk
    subst hst
    rcases haim j hpick c b hphase q L howner hpdu hw with rfl | hc
    · exact .covered (.sent (hb.sent_send hj rest b hpdu hw.2))
    · refine .covered (hc.mono id (fun d hd hp => ?_) hlog)
      refine ((mem_of_pick hperm).1 hd).resolve_left ?_
      rintro rfl
      rw [hphase] at hp
      exact absurd hp (by simp [Phase.Covers])

/-- What a step makes of a reply on its way to a call that waits. -/
theorem Delivering.onWay_move (hb : Based cfg i s) (h : Delivering cfg i s)
    (hm : Sys.Move cfg s a s') (htcp : Sys.Tcp s a) (haim : Aimed cfg i s a) {q : Request}
    {L : Conn ι} (hw : Waits s i q L) : OnWay cfg s' i q L := by
  have hway := h.onWay q L hw
  have hlog := log_mono hm
  have hLi := hb.owner_of_waits hw
  cases hm with
  | transmit => exact hway.mono (List.mem_append_right _) (fun _ => id) hlog
  | recv k c b rest hperm hlen =>
    cases hway with
    | covered hc =>
      cases hc with
      | wire hm =>
        rcases (mem_of_pick hperm).1 hm with heq | hm
        · obtain ⟨rfl, rfl⟩ := Prod.mk.inj heq
          exact .covered (.job _ List.mem_cons_self rfl rfl (.inl rfl))
        · exact .covered (.wire hm)
      | job d hd hconn hpdu hp => exact .covered (.job d (List.mem_cons_of_mem _ hd) hconn hpdu hp)
      | sent hs => exact .covered (.sent hs)
    | works d hd howner hpdu hp => exact .works d (List.mem_cons_of_mem _ hd) howner hpdu hp
    | refused hr => exact .refused hr
  | reject k w j rest hpick hperm hphase hbad =>
    have hj : j ∈ s.jobs := (mem_of_pick hperm).2 (.inl rfl)
    refine hway.of_unclassified hperm rfl hlog (fun _ => id) (.inl hphase) fun _ hpdu => ?_
    obtain ⟨q', hq'⟩ := hb.job j hj
    rcases hbad with hbad | hbad
    · rw [hq'.ok] at hbad
      cases hbad
    · rw [hb.header_of_pdu hj hpdu] at hbad
      exact .refused (.inr hbad)
  | oldsrv k w j rest hpick hperm hphase hold =>
    have hj : j ∈ s.jobs := (mem_of_pick hperm).2 (.inl rfl)
    refine hway.of_unclassified hperm rfl hlog (fun _ => List.mem_cons_of_mem _) (.inl hphase)
      fun _ hpdu => ?_
    rw [hb.header_of_pdu hj hpdu] at hold
    exact .refused (.inl hold)
  | accept k w j rest hpick hperm hphase =>
    refine hway.of_unclassified hperm rfl hlog (fun _ => List.mem_cons_of_mem _) (.inl hphase)
      fun hconn hpdu => ?_
    exact .covered (.job _ List.mem_cons_self hconn hpdu (.inr (.inl rfl)))
  | anonymous k w j rest hpick hperm hphase hok hnonce =>
    refine hway.of_unclassified hperm rfl hlog (fun _ => List.mem_cons_of_mem _) (.inl hphase)
      fun hconn hpdu => ?_
    exact .works _ List.mem_cons_self (hconn ▸ hLi) hpdu rfl
  | check k w j rest hpick hperm hphase =>
    refine hway.of_unclassified hperm rfl hlog (fun _ => mem_check_jobs) (.inr hphase)
      fun hconn hpdu => ?_
    exact h.onWay_check hb hperm hphase hLi hconn hpdu
  | handler k w j rest f b hpick hperm hphase =>
    refine hway.of_working hperm rfl hlog rfl (by simp [hphase, Phase.Covers]) ?_
    split <;> rfl
  | addReply k w j rest b hpick hperm hphase =>
    exact hway.of_working hperm rfl hlog rfl (by simp [hphase, Phase.Covers]) rfl
  | choose k w j rest b c hpick hperm hphase =>
    exact hway.of_working hperm rfl hlog rfl (by simp [hphase, Phase.Covers]) rfl
  | send k w j rest c st b hpick hperm hphase =>
    exact hway.send hb hpick hperm hphase haim hw hlog
  | net _ toSrv toClt cltDead srvDead hsrv hclt hdead hmade hkeep =>
    refine hway.mono (fun hm => ?_) (fun _ => id) hlog
    rcases hkeep htcp _ hm with hm | hd
    · exact hm
    · exact absurd (hw.2.symm.trans hd) Bool.false_ne_true
  | _ => exact hway.mono id (fun _ => id) hlog

/-- **One step.** -/
theorem Delivering.step (hb : Based cfg i s) (h : Delivering cfg i s) (hm : Sys.Move cfg s a s')
    (htcp : Sys.Tcp s a) (haim : Aimed cfg i s a) : Delivering cfg i s' where
  accepted := h.accepted_step hm
  ran := h.ran_step hb hm
  filling := h.filling_step hb hm
  onWay q L hw := by
    rcases hb.waits_step hm hw with hw | hm'
    · exact h.onWay_move hb hm htcp haim hw
    · exact .covered (.wire hm')

end

/-! ## One client -/

end Rpc

end Yfs
