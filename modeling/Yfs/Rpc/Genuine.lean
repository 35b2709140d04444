import Yfs.Rpc.Based

/-!
# Results are genuine

A call that returns a result got it from a run of the handler of its
procedure on its own arguments: the reply that completed it is the one
that run marshalled, and the result is what the body of the reply decodes
to (`MadeBy`). The invariant `Answered` says of every call that is done
which reply completed it. All of it is about runs in which a reply buffer
is its contents; which those are is in `Buffers`.
-/

namespace Yfs

open Common

namespace Rpc

/-! ## Bodies -/

/-- The cursor stands at `body`, and nothing follows it. -/
structure AtBody (u : Unmarshall) (body : List UInt8) : Prop where
  ok : u.ok = true
  ind : u.ind = rpcHeaderSz
  sz : u.sz = rpcHeaderSz + body.length
  bytes : bytesAt u.buf rpcHeaderSz body.length = body

theorem length_body (m : Marshall) : m.body.length = m.ind - rpcHeaderSz := length_bytesAt _ _ _

/-- Memory that holds what was sent, read past the header. -/
theorem atBody_framed (mem : ℕ → UInt8) (m : Marshall) {u : Unmarshall} (hm : rpcHeaderSz ≤ m.ind)
    (hbuf : u.buf = (Unmarshall.ofBytes mem (framed m.str)).buf)
    (hsz : u.sz = (Unmarshall.ofBytes mem (framed m.str)).sz) (hok : u.ok = true)
    (hind : u.ind = rpcHeaderSz) : AtBody u m.body := by
  have h4 : 4 ≤ rpcHeaderSz := by decide
  refine ⟨hok, hind, ?_, ?_⟩
  · rw [hsz, sz_framed mem m (le_trans h4 hm), length_body]
    omega
  · rw [hbuf, bytesAt_framed mem m h4 (by rw [length_body]; omega), length_body]
    rfl

variable {ι Ω : Type} {cfg : Config ι Ω}

/-- The handler of a request finds the arguments as they were marshalled. -/
theorem atBody_parse {q : Request} {i : ι} (hlen : (q.wire cfg i).length ≤ maxPdu) :
    AtBody (Sys.parse cfg (q.wire cfg i)).1 ((Marshall.new cfg.mem).putAll q.ts q.args).body := by
  have hpast := (parse_wire q i hlen).2
  have hind := q.ind_marshalled cfg.mem (cfg.cltNonce i)
  have hbody : (q.marshalled cfg.mem (cfg.cltNonce i)).body =
      ((Marshall.new cfg.mem).putAll q.ts q.args).body := by
    rw [Marshall.body_putAll, Marshall.body, hind, Nat.add_sub_cancel_left]
    exact (q.bytesAt_marshalled cfg.mem (cfg.cltNonce i)).2
  rw [← hbody]
  exact atBody_framed cfg.mem _ (by omega) hpast.buf hpast.sz hpast.ok hpast.ind

/-- `*un` of a call that the reply `rep` completed. -/
def replyOf (cfg : Config ι Ω) (rep : List UInt8) : Unmarshall :=
  (Unmarshall.ofBytes cfg.mem (framed rep)).unpackReplyHeader.1.takeIn

/-- The caller finds the result as it was marshalled. -/
theorem atBody_replyOf {m : Marshall} {h : ReplyHeader} (hm : rpcHeaderSz ≤ m.ind)
    (hlen : (framed (m.packReplyHeader h).str).length ≤ maxPdu) :
    AtBody (replyOf cfg (m.packReplyHeader h).str) m.body := by
  have hpast := (unpackReplyHeader_framed cfg.mem m h hm hlen).2
  have hind : (m.packReplyHeader h).ind = m.ind := Marshall.packReplyHeader_ind m h
  have hbody : (m.packReplyHeader h).body = m.body := by
    rw [Marshall.body, Marshall.body, hind, Marshall.packReplyHeader_buf]
    exact Marshall.bytesAt_packed _ (by rw [ReplyHeader.length_enc]; decide) _
  have hsz := sz_framed cfg.mem (m.packReplyHeader h) (le_trans (by decide) (hind ▸ hm))
  rw [← hbody, replyOf, Unmarshall.takeIn, hpast.buf, hpast.sz]
  refine atBody_framed cfg.mem _ (by omega) rfl rfl ?_ rfl
  rw [hsz, hind]
  exact decide_eq_true hm

/-! ## Runs of a handler -/

/-- The arguments the handler `f` decodes from the request `q`. -/
def decoded (cfg : Config ι Ω) (i : ι) (q : Request) (f : Handler Ω) : Unmarshall × Vals f.args :=
  (Sys.parse cfg (q.wire cfg i)).1.getAll f.args

/-- The call `q` of client `i`, which returned `b` and `r`, was completed
by the reply `rep` that the handler `f` made, run with `w`. -/
structure MadeBy (cfg : Config ι Ω) (log : List (Event ι Ω)) (i : ι) (q : Request) (b : Int32)
    (r : Option q.ret.Val) (f : Handler Ω) (w : Ω) (rep : List UInt8) : Prop where
  registered : cfg.procs q.proc.toInt32 = some f
  /-- The handler read the marshalled bytes of the arguments. -/
  args : AtBody (Sys.parse cfg (q.wire cfg i)).1 ((Marshall.new cfg.mem).putAll q.ts q.args).body
  args_okdone : (decoded cfg i q f).1.okdone = true
  executed : .executed (q.wire cfg i) w b rep ∈ log
  ret : (f.meth w (decoded cfg i q f).2).1 = b
  /-- The reply went to this call. -/
  replied : .replied i q.xid (framed rep) ∈ log
  /-- The caller read the marshalled bytes of the result. -/
  result : AtBody (replyOf cfg rep)
    ((Marshall.new cfg.mem).put f.ret (f.meth w (decoded cfg i q f).2).2).body
  result_okdone : ((replyOf cfg rep).get q.ret).1.okdone = true
  value : r = some ((replyOf cfg rep).get q.ret).2

theorem MadeBy.mono {log log' : List (Event ι Ω)} {i : ι} {q : Request} {b : Int32}
    {r : Option q.ret.Val} {f : Handler Ω} {w : Ω} {rep : List UInt8}
    (h : MadeBy cfg log i q b r f w rep) (hsub : ∀ e ∈ log, e ∈ log') :
    MadeBy cfg log' i q b r f w rep :=
  { h with executed := hsub _ h.executed, replied := hsub _ h.replied }

/-- A handler that returns something that is not negative has called its
method. -/
theorem fn_of_nonneg {f : Handler Ω} {w : Ω} {u : Unmarshall} {m : Marshall}
    (h : ¬ (f.fn w u m).ret < 0) :
    (u.getAll f.args).1.okdone = true ∧
      (f.fn w u m).ret = (f.meth w (u.getAll f.args).2).1 ∧
      (f.fn w u m).rep = m.put f.ret (f.meth w (u.getAll f.args).2).2 := by
  unfold Handler.fn at h ⊢
  dsimp only at h ⊢
  cases hok : (u.getAll f.args).1.okdone with
  | false =>
    rw [hok] at h
    exact absurd (show unmarshalArgsFailure < 0 by decide) h
  | true => exact ⟨rfl, rfl, rfl⟩

/-! ## The reply that completed a call -/

/-- The reply `rep` completed the call `ca` of client `i`. -/
structure Filled (cfg : Config ι Ω) (log : List (Event ι Ω)) (i : ι) (ca : Caller ι)
    (rep : List UInt8) : Prop where
  replied : .replied i ca.q.xid (framed rep) ∈ log
  small : (framed rep).length ≤ maxPdu
  origin : Origin cfg log i ca.q.xid rep
  un : ca.un = replyOf cfg rep
  intret : ca.intret = (Unmarshall.ofBytes cfg.mem (framed rep)).unpackReplyHeader.2.ret

theorem Filled.mono {log log' : List (Event ι Ω)} {i : ι} {ca : Caller ι} {rep : List UInt8}
    (h : Filled cfg log i ca rep) (hsub : ∀ e ∈ log, e ∈ log') : Filled cfg log' i ca rep :=
  { h with replied := hsub _ h.replied, origin := h.origin.mono hsub }

/-- What such a call returns. -/
theorem Filled.madeBy {s : Sys ι Ω} {i : ι} {ca : Caller ι} {rep : List UInt8}
    (hb : Based cfg i s) (hca : ca ∈ (s.clients i).calls) (hdone : ca.done = true)
    (h : Filled cfg s.log i ca rep) (hnonneg : ¬ (Sys.callResult ca).1 < 0) :
    ∃ f w rep, MadeBy cfg s.log i ca.q (Sys.callResult ca).1 (Sys.callResult ca).2 f w rep := by
  have hneg : ¬ ca.intret < 0 := by
    intro hlt
    simp only [Sys.callResult, hdone, if_true, hlt] at hnonneg
    exact hnonneg trivial
  have hok : (ca.un.get ca.q.ret).1.okdone = true := by
    by_contra hno
    simp only [Sys.callResult, hdone, if_true, hneg, if_false, hno] at hnonneg
    exact hnonneg (by decide)
  have hres : Sys.callResult ca = (ca.intret, some (ca.un.get ca.q.ret).2) := by
    simp only [Sys.callResult, hdone, if_true, hneg, if_false, hok]
  rw [hres]
  dsimp only
  cases horg : h.origin with
  | failure q ret hq hx hret hrep =>
    -- a failure says so
    have hhdr := unpackReplyHeader_framed cfg.mem (Marshall.new cfg.mem)
      ⟨(q.hdr (cfg.cltNonce i)).xid, ret⟩ le_rfl (by rw [← failureReply, ← hrep]; exact h.small)
    have hint := h.intret
    rw [hrep, failureReply, hhdr.1] at hint
    rw [hint] at hneg
    rcases hret with rfl | rfl
    · exact absurd (show atmostonceFailure < 0 by decide) hneg
    · exact absurd (show oldsrvFailure < 0 by decide) hneg
  | executed q w f hq hx hlen hf hret hexec hrep =>
    obtain rfl : q = ca.q := hb.ledger.unique q ca.q hq (hb.ledger.caller ca hca) hx
    have hind := rpcHeaderSz_le_fn f w (Sys.parse cfg (ca.q.wire cfg i)).1 cfg.mem
    have hsmall := h.small
    have hint := h.intret
    rw [hrep] at hsmall
    have hbody : AtBody (replyOf cfg rep)
        (f.fn w (Sys.parse cfg (ca.q.wire cfg i)).1 (.new cfg.mem)).rep.body := by
      rw [hrep]
      exact atBody_replyOf hind hsmall
    rw [hrep, (unpackReplyHeader_framed cfg.mem _ _ hind hsmall).1] at hint
    dsimp only at hint
    rw [hint] at hneg ⊢
    obtain ⟨hdec, hmeth, hput⟩ := fn_of_nonneg hneg
    rw [hput] at hbody
    exact ⟨f, w, rep, hf, atBody_parse hlen, hdec, hexec, hmeth.symm, h.replied, hbody,
      h.un ▸ hok, by rw [h.un]⟩

/-- The invariant. -/
structure Answered (cfg : Config ι Ω) (i : ι) (s : Sys ι Ω) : Prop where
  done : ∀ ca ∈ (s.clients i).calls, ca.done = true → ∃ rep, Filled cfg s.log i ca rep
  replied : ∀ x pdu, .replied i x pdu ∈ s.log →
    ∃ rep, pdu = framed rep ∧ Origin cfg s.log i x rep
  returned : ∀ q b r, .returned i q b r ∈ s.log → 0 ≤ b →
    ∃ f w rep, MadeBy cfg s.log i q b r f w rep
  timeout : ∀ q r, .returned i q timeoutFailure r ∈ s.log → ∀ pdu, .replied i q.xid pdu ∉ s.log

section

variable {i : ι} {s s' : Sys ι Ω} {a : Action ι Ω}

theorem answered_init : Answered cfg i (Sys.init : Sys ι Ω) :=
  ⟨by simp [Sys.init, Rpcc.new], by simp [Sys.init], by simp [Sys.init], by simp [Sys.init]⟩

/-- The event is no reply to, and no return of, a call of client `i`. -/
def Unanswering (i : ι) : Event ι Ω → Prop
  | .replied k _ _ => k ≠ i
  | .returned k _ _ _ => k ≠ i
  | _ => True

/-- A step that answers no call of the client. -/
theorem Answered.keep (h : Answered cfg i s)
    (hlog : s'.log = s.log ∨ ∃ e, s'.log = e :: s.log ∧ Unanswering i e)
    (hcalls : ∀ ca ∈ (s'.clients i).calls, ca.done = true →
      ∃ d ∈ (s.clients i).calls, d.done = true ∧ d.q = ca.q ∧ d.un = ca.un ∧ d.intret = ca.intret) :
    Answered cfg i s' := by
  have hsub : ∀ e ∈ s.log, e ∈ s'.log := by
    rcases hlog with heq | ⟨e, heq, -⟩
    · rw [heq]
      exact fun _ => id
    · rw [heq]
      exact fun _ => List.mem_cons_of_mem e
  have hrep : ∀ x pdu, .replied i x pdu ∈ s'.log → .replied i x pdu ∈ s.log := by
    intro x pdu hmem
    rcases hlog with heq | ⟨e, heq, he⟩
    · exact heq ▸ hmem
    · rw [heq] at hmem
      rcases List.mem_cons.1 hmem with rfl | hmem
      · exact absurd rfl he
      · exact hmem
  have hret : ∀ q b r, .returned i q b r ∈ s'.log → .returned i q b r ∈ s.log := by
    intro q b r hmem
    rcases hlog with heq | ⟨e, heq, he⟩
    · exact heq ▸ hmem
    · rw [heq] at hmem
      rcases List.mem_cons.1 hmem with rfl | hmem
      · exact absurd rfl he
      · exact hmem
  refine ⟨fun ca hca hdone => ?_, fun x pdu hmem => ?_, fun q b r hmem hb => ?_,
    fun q r hmem pdu hpdu => h.timeout q r (hret _ _ _ hmem) pdu (hrep _ _ hpdu)⟩
  · obtain ⟨d, hd, hddone, hq, hun, hint⟩ := hcalls ca hca hdone
    obtain ⟨rep, hf⟩ := h.done d hd hddone
    exact ⟨rep, hq ▸ hsub _ hf.replied, hf.small, hq ▸ hf.origin.mono hsub, hun ▸ hf.un,
      hint ▸ hf.intret⟩
  · obtain ⟨rep, hpdu, horg⟩ := h.replied x pdu (hrep _ _ hmem)
    exact ⟨rep, hpdu, horg.mono hsub⟩
  · obtain ⟨f, w, rep, hmade⟩ := h.returned q b r (hret _ _ _ hmem) hb
    exact ⟨f, w, rep, hmade.mono hsub⟩

/-- A reply that completed a call is no timeout. -/
theorem Filled.ne_timeout {ca : Caller ι} {rep : List UInt8} (hdone : ca.done = true)
    (h : Filled cfg s.log i ca rep) : (Sys.callResult ca).1 ≠ timeoutFailure := by
  have hint : ca.intret ≠ timeoutFailure := by
    rw [h.intret]
    have hsmall := h.small
    cases h.origin with
    | failure q ret hq hx hret hrep =>
      rw [hrep, failureReply] at hsmall ⊢
      rw [(unpackReplyHeader_framed cfg.mem _ _ le_rfl hsmall).1]
      rcases hret with rfl | rfl
      · exact (by decide : atmostonceFailure ≠ timeoutFailure)
      · exact (by decide : oldsrvFailure ≠ timeoutFailure)
    | executed q w f hq hx hlen hf hret hexec hrep =>
      rw [hrep] at hsmall ⊢
      rw [(unpackReplyHeader_framed cfg.mem _ _ (rpcHeaderSz_le_fn f w _ cfg.mem) hsmall).1]
      -- the handler returned nothing negative, or `unmarshal_args_failure`
      intro heq
      dsimp only at heq
      rw [heq] at hret
      exact hret ⟨by decide, by decide⟩
  unfold Sys.callResult
  rw [hdone, if_pos rfl]
  dsimp only
  split
  · exact hint
  · split
    · exact hint
    · exact (by decide : unmarshalReplyFailure ≠ timeoutFailure)

/-- A call of the client returns. -/
theorem Answered.finish (hb : Based cfg i s) (h : Answered cfg i s) {ca : Caller ι} {c : Rpcc ι}
    (hca : ca ∈ (s.clients i).calls) (hc : ∀ d ∈ c.calls, d ∈ (s.clients i).calls)
    (hclients : s'.clients i = c)
    (hlog : s'.log = .returned i ca.q (Sys.callResult ca).1 (Sys.callResult ca).2 :: s.log) :
    Answered cfg i s' := by
  have hsub : ∀ e ∈ s.log, e ∈ s'.log := fun e he => hlog ▸ List.mem_cons_of_mem _ he
  have hrep : ∀ x pdu, .replied i x pdu ∈ s'.log → .replied i x pdu ∈ s.log := by
    intro x pdu hmem
    rw [hlog] at hmem
    exact (List.mem_cons.1 hmem).resolve_left (by simp)
  refine ⟨fun d hd hdone => ?_, fun x pdu hmem => ?_, fun q b r hmem hnonneg => ?_,
    fun q r hmem pdu hpdu => ?_⟩
  · obtain ⟨rep, hf⟩ := h.done d (hc d (hclients ▸ hd)) hdone
    exact ⟨rep, hf.mono hsub⟩
  · obtain ⟨rep, hpdu, horg⟩ := h.replied x pdu (hrep x pdu hmem)
    exact ⟨rep, hpdu, horg.mono hsub⟩
  · rw [hlog] at hmem
    rcases List.mem_cons.1 hmem with heq | hmem
    · cases heq
      have hneg : ¬ (Sys.callResult ca).1 < 0 := Int32.not_lt.2 hnonneg
      by_cases hdone : ca.done = true
      · obtain ⟨rep, hf⟩ := h.done ca hca hdone
        obtain ⟨f, w, rep, hmade⟩ := hf.madeBy hb hca hdone hneg
        exact ⟨f, w, rep, hmade.mono hsub⟩
      · -- it timed out
        simp only [Sys.callResult, hdone] at hneg
        exact absurd (by decide : timeoutFailure < 0) hneg
    · obtain ⟨f, w, rep, hmade⟩ := h.returned q b r hmem hnonneg
      exact ⟨f, w, rep, hmade.mono hsub⟩
  · have hpdu := hrep _ _ hpdu
    rw [hlog] at hmem
    rcases List.mem_cons.1 hmem with heq | hmem
    · obtain ⟨-, rfl, hret, -⟩ := Event.returned.inj heq
      have hdone := (hb.ledger.progress ca hca).1 (.inl ⟨pdu, hpdu⟩)
      obtain ⟨rep, hf⟩ := h.done ca hca hdone
      exact hf.ne_timeout hdone hret.symm
    · exact h.timeout q r hmem pdu hpdu

/-- A reply arrives for a call that waits for it. -/
theorem Answered.complete (hb : Based cfg i s) (h : Answered cfg i s) {ca : Caller ι}
    {rep : List UInt8} {c : Rpcc ι} (hca : ca ∈ (s.clients i).calls) (hwait : ca.done = false)
    (hsmall : (framed rep).length ≤ maxPdu) (horg : Origin cfg s.log i ca.q.xid rep)
    (hcalls : c.calls = Sys.setCall (s.clients i).calls ca.q.xid
      (Sys.complete (Unmarshall.ofBytes cfg.mem (framed rep)).unpackReplyHeader.1
        (Unmarshall.ofBytes cfg.mem (framed rep)).unpackReplyHeader.2.ret))
    (hclients : s'.clients i = c) (hlog : s'.log = .replied i ca.q.xid (framed rep) :: s.log) :
    Answered cfg i s' := by
  have hsub : ∀ e ∈ s.log, e ∈ s'.log := fun e he => hlog ▸ List.mem_cons_of_mem _ he
  have hret : ∀ q b r, .returned i q b r ∈ s'.log → .returned i q b r ∈ s.log := by
    intro q b r hmem
    rw [hlog] at hmem
    exact (List.mem_cons.1 hmem).resolve_left (by simp)
  refine ⟨fun d hd hdone => ?_, fun x pdu hmem => ?_, fun q b r hmem hnonneg => ?_,
    fun q r hmem pdu hpdu => ?_⟩
  · rw [hclients, hcalls] at hd
    obtain ⟨e, he, rfl⟩ := mem_setCall.1 hd
    by_cases hx : e.q.xid = ca.q.xid
    · obtain rfl := hb.ledger.eq_of_xid hca he hx
      simp only [if_true, Sys.complete, hwait, Bool.false_eq_true, if_false]
      exact ⟨rep, hlog ▸ List.mem_cons_self, hsmall, horg.mono hsub, rfl, rfl⟩
    · rw [if_neg hx] at hdone ⊢
      obtain ⟨rep', hf⟩ := h.done e he hdone
      exact ⟨rep', hf.mono hsub⟩
  · rw [hlog] at hmem
    rcases List.mem_cons.1 hmem with heq | hmem
    · cases heq
      exact ⟨rep, rfl, horg.mono hsub⟩
    · obtain ⟨rep', hpdu, horg'⟩ := h.replied x pdu hmem
      exact ⟨rep', hpdu, horg'.mono hsub⟩
  · obtain ⟨f, w, rep', hmade⟩ := h.returned q b r (hret q b r hmem) hnonneg
    exact ⟨f, w, rep', hmade.mono hsub⟩
  · have hmem := hret _ _ _ hmem
    rw [hlog] at hpdu
    rcases List.mem_cons.1 hpdu with heq | hpdu
    · -- a call that has returned is no longer waiting
      obtain ⟨-, hx, -⟩ := Event.replied.inj heq
      have hdone := (hb.ledger.progress ca hca).1 (hx ▸ .inr ⟨q, _, r, hmem, rfl⟩)
      rw [hwait] at hdone
      cases hdone
    · exact h.timeout q r hmem pdu hpdu

/-- The calls of `i` after a step of client `k`. -/
theorem done_setClient [DecidableEq ι] {k : ι} {c : Rpcc ι}
    (hself : k = i → ∀ ca ∈ c.calls, ca.done = true → ∃ d ∈ (s.clients i).calls, d.done = true ∧
      d.q = ca.q ∧ d.un = ca.un ∧ d.intret = ca.intret) :
    ∀ ca ∈ ((s.setClient k c).clients i).calls, ca.done = true → ∃ d ∈ (s.clients i).calls,
      d.done = true ∧ d.q = ca.q ∧ d.un = ca.un ∧ d.intret = ca.intret := by
  by_cases hk : k = i
  · subst hk
    simp only [Sys.setClient, Function.update_self]
    exact hself rfl
  · simp only [Sys.setClient, Function.update_of_ne (Ne.symm hk)]
    exact fun ca hca hdone => ⟨ca, hca, hdone, rfl, rfl, rfl⟩

/-- A change that `got_pdu` does not make. -/
theorem done_setCall {calls : List (Caller ι)} {x : ℕ} {f : Caller ι → Caller ι}
    (hf : ∀ d, d ∈ calls → d.q.xid = x → (f d).done = true →
      d.done = true ∧ d.q = (f d).q ∧ d.un = (f d).un ∧ d.intret = (f d).intret) :
    ∀ ca ∈ Sys.setCall calls x f, ca.done = true →
      ∃ d ∈ calls, d.done = true ∧ d.q = ca.q ∧ d.un = ca.un ∧ d.intret = ca.intret := by
  intro ca hca hdone
  obtain ⟨d, hd, rfl⟩ := mem_setCall.1 hca
  by_cases hx : d.q.xid = x
  · rw [if_pos hx] at hdone ⊢
    exact ⟨d, hd, hf d hd hx hdone⟩
  · rw [if_neg hx] at hdone ⊢
    exact ⟨d, hd, hdone, rfl, rfl, rfl⟩

/-- A client reads a message. -/
theorem Answered.gotPdu [DecidableEq ι] (hb : Based cfg i s) (h : Answered cfg i s) {c : Conn ι}
    {b : List UInt8} {rest : List (Conn ι × List UInt8)} {log : List (Event ι Ω)} {xid : ℕ}
    {c' : Rpcc ι} (hmem : (c, b) ∈ s.toClt) (hlen : b.length ≤ maxPdu)
    (hxid : xid = (Unmarshall.ofBytes cfg.mem b).unpackReplyHeader.2.xid.toUInt32.toNat)
    (hlog : log = match Sys.findCall (s.clients c.owner).calls xid with
      | none => s.log
      | some ca => if ca.done then s.log else .replied c.owner xid b :: s.log)
    (hcalls : c'.calls = Sys.setCall (s.clients c.owner).calls xid
      (Sys.complete (Unmarshall.ofBytes cfg.mem b).unpackReplyHeader.1
        (Unmarshall.ofBytes cfg.mem b).unpackReplyHeader.2.ret)) :
    Answered cfg i { s.setClient c.owner c' with toClt := rest, log := log } := by
  by_cases hc : c.owner = i
  · obtain ⟨q, rep, hq, hrep, horg⟩ := hb.toClt (c, b) hmem hc
    dsimp only at hrep
    subst hrep
    have hx : xid = q.xid := by
      have hlt := hb.ledger.xid_lt
      have hqx := (hb.ledger.called_lt q hq).2
      rw [hxid]
      exact horg.xid_eq hlen (by omega)
    subst hx
    subst hc
    cases hf : Sys.findCall (s.clients c.owner).calls q.xid with
    | none =>
      rw [hf] at hlog
      refine h.keep (.inl hlog) (done_setClient fun _ => ?_)
      rw [hcalls]
      exact done_setCall fun d hd hdx => absurd hdx (findCall_none hf d hd)
    | some ca =>
      obtain ⟨hca, hcx⟩ := findCall_some hf
      rw [hf] at hlog
      by_cases hdone : ca.done = true
      · -- the call has its reply already
        simp only [hdone, if_true] at hlog
        refine h.keep (.inl hlog) (done_setClient fun _ => ?_)
        rw [hcalls]
        refine done_setCall fun d hd hdx _ => ?_
        obtain rfl := hb.ledger.eq_of_xid hca hd (hdx.trans hcx.symm)
        simp [Sys.complete, hdone]
      · have hwait := Bool.eq_false_of_not_eq_true hdone
        simp only [hwait, Bool.false_eq_true, if_false] at hlog
        rw [← hcx] at hlog horg hcalls
        exact h.complete hb hca hwait hlen horg hcalls (Function.update_self _ _ _) hlog
  · refine h.keep ?_ (done_setClient fun heq => absurd heq hc)
    simp only [hlog]
    split
    · exact .inl rfl
    · split
      · exact .inl rfl
      · exact .inr ⟨_, rfl, hc⟩

/-- **One step.** -/
theorem Answered.step [DecidableEq ι] (hb : Based cfg i s) (h : Answered cfg i s)
    (hm : Sys.Move cfg s a s') : Answered cfg i s' := by
  have hsame : ∀ ca ∈ (s.clients i).calls, ca.done = true → ∃ d ∈ (s.clients i).calls,
      d.done = true ∧ d.q = ca.q ∧ d.un = ca.un ∧ d.intret = ca.intret :=
    fun ca hca hdone => ⟨ca, hca, hdone, rfl, rfl, rfl⟩
  cases hm with
  | call k bind proc ts args ret ca hxid hrep hdone =>
    refine h.keep (.inr ⟨_, rfl, trivial⟩) (done_setClient ?_)
    rintro rfl d hd hdd
    rcases List.mem_cons.1 hd with rfl | hd
    · rw [hdone] at hdd
      cases hdd
    · exact hsame d hd hdd
  | transmit k xid =>
    refine h.keep (.inl rfl) (done_setClient ?_)
    rintro rfl
    exact done_setCall fun d _ _ hdone => ⟨hdone, rfl, rfl, rfl⟩
  | wake k xid =>
    refine h.keep (.inl rfl) (done_setClient ?_)
    rintro rfl
    exact done_setCall fun d _ _ hdone => ⟨hdone, rfl, rfl, rfl⟩
  | finish k xid ca binds hca htr =>
    by_cases hk : k = i
    · subst hk
      exact h.finish hb (findCall_some hca).1 (fun d hd => (List.mem_filter.1 hd).1)
        (Function.update_self _ _ _) rfl
    · exact h.keep (.inr ⟨_, rfl, hk⟩)
        (done_setClient fun heq => absurd heq hk)
  | bound k =>
    refine h.keep (.inl rfl) (done_setClient ?_)
    rintro rfl
    exact hsame
  | gotPdu k c b rest log xid hperm hlen hok hxid hlog =>
    exact h.gotPdu hb ((mem_of_pick hperm).2 (.inl rfl)) hlen hxid hlog rfl
  | check => exact h.keep (.inr ⟨_, rfl, trivial⟩) hsame
  | handler => exact h.keep (.inr ⟨_, rfl, trivial⟩) hsame
  | send k w j rest c st b =>
    refine h.keep ?_ hsame
    rcases Sys.log_send cfg s j rest c b with heq | heq
    · exact .inl heq
    · exact .inr ⟨_, heq, trivial⟩
  | _ => exact h.keep (.inl rfl) hsame

/-- A call of client `i` that returns a value that is not negative, with a
result, got both from a run of the handler of its procedure on its
arguments; a reply that completes a call belongs to it; and a call that
times out has received none. -/
structure Genuine (cfg : Config ι Ω) (i : ι) (log : List (Event ι Ω)) : Prop where
  returned : ∀ q b r, .returned i q b r ∈ log → 0 ≤ b →
    ∃ f w rep, MadeBy cfg log i q b r f w rep
  replied : ∀ x pdu, .replied i x pdu ∈ log → ∃ rep, pdu = framed rep ∧ Origin cfg log i x rep
  timeout : ∀ q r, .returned i q timeoutFailure r ∈ log → ∀ pdu, .replied i q.xid pdu ∉ log

/-- **Results are genuine** in every run in which a reply buffer is its
contents. -/
theorem results_genuine [DecidableEq ι] {acts : List (Action ι Ω)} (hi : Regular cfg i acts)
    (hexec : exec (Sys.step cfg) .init acts = some s) : Genuine cfg i s.log := by
  have h := hi.reached answered_init (fun _ _ _ hb h hm => h.step hb hm) hexec
  exact ⟨h.returned, h.replied, h.timeout⟩

end

/-- The client binds and calls the procedure 2, and the call returns. -/
def echoRun : List (Action Unit Unit) :=
  bindFirst ++ ask 2 2 ++ serve 6 ++ [.gotPdu 0, .finish () 2]

end Rpc

end Yfs
