import Yfs.Rpc.Based

/-!
# Requests that reached the reply window

Which entries the reply window of a client holds follows from the order
in which its requests reached `checkduplicate_and_update`: a request puts
its own entry there and takes out those it acknowledges (`Present`). A
request is new exactly when, at that moment, its entry is not present.
-/

namespace Yfs

open Common

/-- The request is the one numbered `x` of the client with nonce `n`. -/
def ReqHeader.IsFor (h : ReqHeader) (n : UInt32) (x : ℕ) : Prop :=
  h.cltNonce = n ∧ h.xid.toUInt32.toNat = x

/-- The request acknowledges the reply to the one numbered `x`. -/
def ReqHeader.Acks (h : ReqHeader) (n : UInt32) (x : ℕ) : Prop :=
  h.cltNonce = n ∧ x ≤ h.xidRep.toUInt32.toNat

instance (h : ReqHeader) (n : UInt32) (x : ℕ) : Decidable (h.IsFor n x) :=
  inferInstanceAs (Decidable (_ ∧ _))

instance (h : ReqHeader) (n : UInt32) (x : ℕ) : Decidable (h.Acks n x) :=
  inferInstanceAs (Decidable (_ ∧ _))

namespace Rpc

variable {ι Ω : Type}

/-- The header, if the event is that a request was classified. -/
def Event.arrival : Event ι Ω → Option ReqHeader
  | .classified h _ => some h
  | _ => none

/-- The requests that were classified, newest first. -/
def arrivals (log : List (Event ι Ω)) : List ReqHeader := log.filterMap Event.arrival

/-- The `NEW` branch is taken for the request `x` of the client with
nonce `n`. -/
def Event.isNew (n : UInt32) (x : ℕ) : Event ι Ω → Bool
  | .classified h st => decide (st = .new ∧ h.IsFor n x)
  | _ => false

/-- The handler runs for that request. -/
def Event.isRun (cfg : Config ι Ω) (n : UInt32) (x : ℕ) : Event ι Ω → Bool
  | .executed pdu _ _ _ => decide ((Sys.parse cfg pdu).2.IsFor n x)
  | _ => false

/-- After these arrivals there is an entry for the request `x`: it
arrived, and none that arrived later acknowledges it. -/
def Present (n : UInt32) (x : ℕ) : List ReqHeader → Prop
  | [] => False
  | h :: hs => h.IsFor n x ∨ (¬ h.Acks n x ∧ Present n x hs)

/-- Every request with nonce `n` was found new exactly when there was no
entry for it, and none was found forgotten. -/
def Judged (n : UInt32) : List (Event ι Ω) → Prop
  | [] => True
  | .classified h st :: log =>
    (h.cltNonce = n → st ≠ .forgotten ∧
      (st = .new ↔ ¬ Present n h.xid.toUInt32.toNat (arrivals log))) ∧ Judged n log
  | _ :: log => Judged n log

/-- What the reply window of client `i` says about the arrivals. -/
structure Arrived (cfg : Config ι Ω) (i : ι) (s : Sys ι Ω) : Prop where
  entry : ∀ x, (∃ e ∈ s.replyWindow (cfg.cltNonce i), e.xid = x) ↔
    Present (cfg.cltNonce i) x (arrivals s.log)
  judged : Judged (cfg.cltNonce i) s.log
  packed : ∀ h ∈ arrivals s.log, h.cltNonce = cfg.cltNonce i →
    ∃ q, .called i q ∈ s.log ∧ h = q.hdr (cfg.cltNonce i)

theorem exists_of_present {n : UInt32} {x : ℕ} {hs : List ReqHeader} (h : Present n x hs) :
    ∃ d ∈ hs, d.IsFor n x := by
  induction hs with
  | nil => exact h.elim
  | cons d hs ih =>
    rcases h with hd | ⟨-, h⟩
    · exact ⟨d, List.mem_cons_self, hd⟩
    · obtain ⟨e, he, hex⟩ := ih h
      exact ⟨e, List.mem_cons_of_mem d he, hex⟩

/-- An entry that is gone was acknowledged. -/
theorem exists_ack_of_not_present {n : UInt32} {x : ℕ} {hs : List ReqHeader}
    (h : ¬ Present n x hs) (harr : ∃ d ∈ hs, d.IsFor n x) :
    ∃ ack early, [ack, early].Sublist hs ∧ early.IsFor n x ∧ ack.Acks n x := by
  induction hs with
  | nil =>
    obtain ⟨d, hd, -⟩ := harr
    cases hd
  | cons d hs ih =>
    simp only [Present, not_or, not_and] at h
    obtain ⟨hd, hrest⟩ := h
    have htail : ∃ e ∈ hs, e.IsFor n x := by
      obtain ⟨e, he, hex⟩ := harr
      rcases List.mem_cons.1 he with rfl | he
      · exact absurd hex hd
      · exact ⟨e, he, hex⟩
    by_cases hack : d.Acks n x
    · obtain ⟨e, he, hex⟩ := htail
      exact ⟨d, e, (List.singleton_sublist.2 he).cons_cons d, hex, hack⟩
    · obtain ⟨ack, early, hsub, hearly, hacks⟩ := ih (hrest hack) htail
      exact ⟨ack, early, hsub.cons d, hearly, hacks⟩

theorem arrivals_cons (e : Event ι Ω) (log : List (Event ι Ω)) (he : e.arrival = none) :
    arrivals (e :: log) = arrivals log := List.filterMap_cons_none he

theorem judged_cons {n : UInt32} {e : Event ι Ω} {log : List (Event ι Ω)} (he : e.arrival = none)
    (h : Judged n log) : Judged n (e :: log) := by
  cases e with
  | classified h st => cases he
  | _ => exact h

variable {cfg : Config ι Ω} {i : ι} {s s' : Sys ι Ω} {a : Action ι Ω}

theorem arrived_init : Arrived cfg i (Sys.init : Sys ι Ω) :=
  ⟨by simp [Sys.init, arrivals, Present], trivial, by simp [Sys.init, arrivals]⟩

/-- A step that classifies nothing, and keeps the entries. -/
theorem Arrived.keep (h : Arrived cfg i s)
    (hlog : s'.log = s.log ∨ ∃ e, e.arrival = none ∧ s'.log = e :: s.log)
    (hentry : ∀ x, (∃ e ∈ s'.replyWindow (cfg.cltNonce i), e.xid = x) ↔
      ∃ e ∈ s.replyWindow (cfg.cltNonce i), e.xid = x) : Arrived cfg i s' := by
  have harr : arrivals s'.log = arrivals s.log := by
    rcases hlog with heq | ⟨e, he, heq⟩
    · rw [heq]
    · rw [heq, arrivals_cons e _ he]
  have hmono : ∀ e ∈ s.log, e ∈ s'.log := by
    rcases hlog with heq | ⟨e, he, heq⟩
    · rw [heq]
      exact fun _ => id
    · rw [heq]
      exact fun _ => List.mem_cons_of_mem e
  refine ⟨fun x => ?_, ?_, fun d hd hn => ?_⟩
  · rw [hentry, harr]
    exact h.entry x
  · rcases hlog with heq | ⟨e, he, heq⟩
    · rw [heq]
      exact h.judged
    · rw [heq]
      exact judged_cons he h.judged
  · rw [harr] at hd
    obtain ⟨q, hq, hdq⟩ := h.packed d hd hn
    exact ⟨q, hmono _ hq, hdq⟩

/-- The xids with an entry after a request of the client was classified. -/
theorem exists_entry_iff {l : List ReplyT} {x xr : ℕ} {r : List ReplyT × RpcState × List UInt8}
    (hc : Classified l x xr r) (hlt : xr < x) (y : ℕ) :
    (∃ e ∈ r.1, e.xid = y) ↔ x = y ∨ (¬ y ≤ xr ∧ ∃ e ∈ l, e.xid = y) := by
  -- what the pruning leaves
  have hfilter : (∃ e ∈ l.filter (fun e => decide (xr < e.xid)), e.xid = y) ↔
      ¬ y ≤ xr ∧ ∃ e ∈ l, e.xid = y := by
    constructor
    · rintro ⟨e, he, rfl⟩
      obtain ⟨hm, hk⟩ := List.mem_filter.1 he
      exact ⟨by simpa using hk, e, hm, rfl⟩
    · rintro ⟨hy, e, he, rfl⟩
      exact ⟨e, List.mem_filter.2 ⟨he, by simpa using hy⟩, rfl⟩
  -- a duplicate finds its own entry there
  have hself : (∃ e ∈ l, e.xid = x) →
      (x = y ∨ (¬ y ≤ xr ∧ ∃ e ∈ l, e.xid = y) ↔ ¬ y ≤ xr ∧ ∃ e ∈ l, e.xid = y) := by
    refine fun hx => or_iff_right_of_imp ?_
    rintro rfl
    exact ⟨by omega, hx⟩
  cases hc with
  | new hno =>
    simp only [List.mem_append, List.mem_singleton, or_and_right, exists_or, exists_eq_left]
    rw [hfilter, or_comm]
    rfl
  | inprogress e he hx => rw [hself ⟨e, he, hx⟩, hfilter]
  | done e he hx => rw [hself ⟨e, he, hx⟩, hfilter]
  | forgotten hle => omega

/-- A request is new exactly when there is no entry for it. -/
theorem new_iff {l : List ReplyT} {x xr : ℕ} {r : List ReplyT × RpcState × List UInt8}
    (hc : Classified l x xr r) (hlt : xr < x) : r.2.1 = .new ↔ ¬ ∃ e ∈ l, e.xid = x := by
  cases hc with
  | new hno =>
    refine ⟨fun _ => ?_, fun _ => rfl⟩
    rintro ⟨e, he, hx⟩
    exact hno e he hx
  | inprogress e he hx => exact iff_of_false (by simp) fun hno => hno ⟨e, he, hx⟩
  | done e he hx => exact iff_of_false (by simp) fun hno => hno ⟨e, he, hx⟩
  | forgotten hle => omega

/-- A request that does not acknowledge itself is not forgotten. -/
theorem ne_forgotten {l : List ReplyT} {x xr : ℕ} {r : List ReplyT × RpcState × List UInt8}
    (hc : Classified l x xr r) (hlt : xr < x) : r.2.1 ≠ .forgotten := by
  cases hc with
  | forgotten hle => omega
  | _ => simp

/-- The numbers in the header of a copy. -/
theorem Copy.isFor_iff {j : Job ι} {q : Request} (h : Copy cfg s i j q) (x : ℕ) :
    (q.hdr (cfg.cltNonce i)).IsFor (cfg.cltNonce i) x ↔ q.xid = x := by
  rw [ReqHeader.IsFor, ← h.hdr, h.xid_toNat, h.hdr]
  exact and_iff_right rfl

theorem Copy.acks_iff {j : Job ι} {q : Request} (h : Copy cfg s i j q) (x : ℕ) :
    (q.hdr (cfg.cltNonce i)).Acks (cfg.cltNonce i) x ↔ x ≤ q.xidRep := by
  rw [ReqHeader.Acks, ← h.hdr, h.xidRep_toNat, h.hdr]
  exact and_iff_right rfl

/-- A request of the client is classified. -/
theorem Arrived.check (h : Arrived cfg i s) {j : Job ι} {q : Request} (hq : Copy cfg s i j q)
    (rest : List (Job ι)) : Arrived cfg i (s.check cfg j rest) := by
  obtain ⟨r, hc, heq⟩ := hq.classified rest
  rw [heq]
  have hx : (q.hdr (cfg.cltNonce i)).xid.toUInt32.toNat = q.xid := hq.hdr ▸ hq.xid_toNat
  refine ⟨fun x => ?_, ⟨fun _ => ?_, h.judged⟩, fun d hd hn => ?_⟩
  · dsimp only
    rw [if_pos rfl, exists_entry_iff hc hq.lt]
    show _ ↔ (q.hdr (cfg.cltNonce i)).IsFor (cfg.cltNonce i) x ∨
      (¬ (q.hdr (cfg.cltNonce i)).Acks (cfg.cltNonce i) x ∧
        Present (cfg.cltNonce i) x (arrivals s.log))
    rw [hq.isFor_iff, hq.acks_iff, h.entry]
  · refine ⟨ne_forgotten hc hq.lt, ?_⟩
    rw [new_iff hc hq.lt, hx, h.entry]
  · rcases List.mem_cons.1 hd with rfl | hd
    · exact ⟨q, List.mem_cons_of_mem _ hq.called_mem, rfl⟩
    · obtain ⟨q', hq', hdq⟩ := h.packed d hd hn
      exact ⟨q', List.mem_cons_of_mem _ hq', hdq⟩

/-- A request of another client is classified. -/
theorem Arrived.check_other (h : Arrived cfg i s) {j : Job ι} (rest : List (Job ι))
    (hn : (Sys.header cfg j).cltNonce ≠ cfg.cltNonce i) : Arrived cfg i (s.check cfg j rest) := by
  refine ⟨fun x => ?_, ⟨fun hh => absurd hh hn, h.judged⟩, fun d hd hdn => ?_⟩
  · rw [Sys.check_replyWindow_of_ne hn, h.entry]
    show _ ↔ (Sys.header cfg j).IsFor (cfg.cltNonce i) x ∨
      (¬ (Sys.header cfg j).Acks (cfg.cltNonce i) x ∧ Present (cfg.cltNonce i) x (arrivals s.log))
    simp [ReqHeader.IsFor, ReqHeader.Acks, hn]
  · rcases List.mem_cons.1 hd with rfl | hd
    · exact absurd hdn hn
    · obtain ⟨q', hq', hdq⟩ := h.packed d hd hdn
      exact ⟨q', List.mem_cons_of_mem _ hq', hdq⟩

/-- **One step.** -/
theorem Arrived.step [DecidableEq ι] (hb : Based cfg i s) (h : Arrived cfg i s)
    (hm : Sys.Move cfg s a s') : Arrived cfg i s' := by
  cases hm with
  | call => exact h.keep (.inr ⟨_, rfl, rfl⟩) fun _ => Iff.rfl
  | finish => exact h.keep (.inr ⟨_, rfl, rfl⟩) fun _ => Iff.rfl
  | gotPdu k c b rest log xid hperm hlen hok hxid hlog =>
    refine h.keep ?_ fun _ => Iff.rfl
    rcases Sys.log_gotPdu hlog with heq | heq
    · exact .inl heq
    · exact .inr ⟨_, rfl, heq⟩
  | check k w j rest hpick hperm hphase =>
    have hj : j ∈ s.jobs := (mem_of_pick hperm).2 (.inl rfl)
    by_cases ho : j.conn.owner = i
    · obtain ⟨q, hq⟩ := hb.copy hj ho
      exact h.check hq rest
    · exact h.check_other rest fun hn => ho (hb.owner_of_nonce hj hn)
  | handler => exact h.keep (.inr ⟨_, rfl, rfl⟩) fun _ => Iff.rfl
  | addReply k w j rest b hpick hperm hphase =>
    -- a reply is filled in where its entry is
    refine h.keep (.inl rfl) fun x => ?_
    have hmap : ∀ l : List ReplyT, ∀ y,
        (∃ e ∈ Yfs.addReply l y b, e.xid = x) ↔ ∃ e ∈ l, e.xid = x := by
      intro l y
      simp only [Yfs.addReply, List.mem_map, exists_exists_and_eq_and]
      refine exists_congr fun e => and_congr_right fun _ => ?_
      split <;> rfl
    by_cases hn : (Sys.header cfg j).cltNonce = cfg.cltNonce i
    · rw [Sys.storeReply_replyWindow hn]
      exact hmap _ _
    · rw [Sys.storeReply_replyWindow_of_ne hn]
  | send k w j rest c st b =>
    refine h.keep ?_ fun _ => Iff.rfl
    rcases Sys.log_send cfg s j rest c b with heq | heq
    · exact .inl heq
    · exact .inr ⟨_, rfl, heq⟩
  | _ => exact h.keep (.inl rfl) fun _ => Iff.rfl

/-- **Runs.** -/
theorem Regular.arrived [DecidableEq ι] {acts : List (Action ι Ω)} (hi : Regular cfg i acts)
    (hexec : exec (Sys.step cfg) .init acts = some s) : Arrived cfg i s :=
  hi.reached arrived_init (fun _ _ _ hb h hm => h.step hb hm) hexec

end Rpc

end Yfs
