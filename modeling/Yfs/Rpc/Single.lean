import Mathlib.Data.List.Induction
import Yfs.Common.Reach
import Yfs.Rpc.Threads

/-!
# A single thread

Where all the calls are those of one thread, each has returned before the
next is made, and one that returned a result was executed. So, but for
stale copies, at most one job is at a handler, and a thread that enters a
method of the object finds no other inside: a run that frees no buffer in
use is orderly (`orderly_of_keepsUsed`).
-/

namespace Yfs

open Common

namespace Rpc

variable {ι σ τ α : Type}

/-! ## The jobs of a client -/

section

variable {Ω : Type} {cfg : Config ι Ω} {i : ι} {s s' : Sys ι Ω} {a : Action ι Ω}

/-- The job is one of client `i`, at the handler. -/
def Job.inHandlerFor [DecidableEq ι] (i : ι) (j : Job ι) : Bool :=
  decide (j.conn.owner = i) && j.phase.isHandler

/-- The client makes one call at a time, each of which was executed if it
is over, and none twice. -/
structure OneByOne (cfg : Config ι Ω) (i : ι) (s : Sys ι Ω) : Prop extends Based cfg i s where
  one : (pending s i).length ≤ 1
  run : ∀ q, .called i q ∈ s.log → q ∈ pending s i ∨
    1 ≤ s.log.countP (Event.isRun cfg (cfg.cltNonce i) q.xid)
  once : ∀ x, s.log.countP (Event.isRun cfg (cfg.cltNonce i) x) +
    s.jobs.countP (Job.atHandler cfg (cfg.cltNonce i) x) ≤ 1

variable [DecidableEq ι]

/-- What is at the handler is the call in progress. -/
theorem OneByOne.exists_pending (h : OneByOne cfg i s) {j : Job ι} (hj : j ∈ s.jobs)
    (hjob : j.inHandlerFor i = true) :
    ∃ q ∈ pending s i, j.atHandler cfg (cfg.cltNonce i) q.xid = true := by
  obtain ⟨howner, hphase⟩ := Bool.and_eq_true_iff.1 hjob
  obtain ⟨q, hq⟩ := h.copy hj (of_decide_eq_true howner)
  have hfor : (Sys.header cfg j).IsFor (cfg.cltNonce i) q.xid := by
    rw [hq.hdr]
    exact (hq.isFor_iff q.xid).2 rfl
  have hat : j.atHandler cfg (cfg.cltNonce i) q.xid = true :=
    Bool.and_eq_true_iff.2 ⟨hphase, decide_eq_true hfor⟩
  have hpos : 0 < s.jobs.countP (Job.atHandler cfg (cfg.cltNonce i) q.xid) :=
    List.countP_pos_iff.2 ⟨j, hj, hat⟩
  have honce := h.once q.xid
  exact ⟨q, (h.run q hq.called_mem).resolve_right (by omega), hat⟩

/-- **One job at most** of the client is at the handler. -/
theorem OneByOne.countP_le_one (h : OneByOne cfg i s) :
    s.jobs.countP (Job.inHandlerFor i) ≤ 1 := by
  by_cases hany : ∃ j ∈ s.jobs, j.inHandlerFor i = true
  · obtain ⟨j, hj, hjob⟩ := hany
    obtain ⟨q, hq, -⟩ := h.exists_pending hj hjob
    obtain ⟨q', hq'⟩ := List.length_eq_one_iff.1
      (Nat.le_antisymm h.one (List.length_pos_of_mem hq))
    -- all that are there are for this call
    have hle : s.jobs.countP (Job.inHandlerFor i) ≤
        s.jobs.countP (Job.atHandler cfg (cfg.cltNonce i) q'.xid) := by
      refine List.countP_mono_left fun k hk hkjob => ?_
      obtain ⟨p, hp, hat⟩ := h.exists_pending hk hkjob
      rw [hq', List.mem_singleton] at hp
      exact hp ▸ hat
    have honce := h.once q'.xid
    omega
  · rw [List.countP_eq_zero.2 fun j hj hjob => hany ⟨j, hj, hjob⟩]
    exact Nat.zero_le 1

/-- A step takes away no job but the one it works on. -/
theorem count_jobs_le (hm : Sys.Move cfg s a s') (j : Job ι) :
    s.jobs.count j ≤ s'.jobs.count j + if s.picked a = some j then 1 else 0 := by
  have hpicked : ∀ {k : ℕ} {w : Ω} {d : Job ι} {rest jobs : List (Job ι)},
      s.jobs[k]? = some d → s.jobs.Perm (d :: rest) → rest.Sublist jobs →
      s.jobs.count j ≤ jobs.count j + if s.picked (.dispatch k w) = some j then 1 else 0 := by
    intro k w d rest jobs hd hperm hsub
    rw [hperm.count_eq, List.count_cons, Sys.picked, hd]
    have hle := hsub.count_le j
    simp only [beq_iff_eq, Option.some.injEq]
    omega
  cases hm with
  | recv k c b rest => exact (List.count_le_count_cons).trans (Nat.le_add_right _ _)
  | reject k w d rest hpick hperm => exact hpicked hpick hperm (.refl _)
  | oldsrv k w d rest hpick hperm => exact hpicked hpick hperm (List.sublist_cons_self _ _)
  | accept k w d rest hpick hperm => exact hpicked hpick hperm (List.sublist_cons_self _ _)
  | anonymous k w d rest hpick hperm => exact hpicked hpick hperm (List.sublist_cons_self _ _)
  | check k w d rest hpick hperm =>
    obtain ⟨r, -, heq⟩ := Sys.classified_check cfg s d rest
    refine hpicked hpick hperm ?_
    rw [heq]
    dsimp only
    cases r.2.1 with
    | inprogress => exact .refl _
    | _ => exact List.sublist_cons_self _ _
  | handler k w d rest f b hpick hperm => exact hpicked hpick hperm (List.sublist_cons_self _ _)
  | addReply k w d rest b hpick hperm => exact hpicked hpick hperm (List.sublist_cons_self _ _)
  | choose k w d rest b c hpick hperm => exact hpicked hpick hperm (List.sublist_cons_self _ _)
  | send k w d rest c st b hpick hperm => exact hpicked hpick hperm (.refl _)
  | _ => exact Nat.le_add_right _ _

end

/-! ## The calls of a thread -/

section

variable [DecidableEq ι] {cfg : Config ι (σ × τ)} {reg : Int32 → Option (Method σ τ)} {x₀ : σ}
variable {ps : ι → Prog RemoteCall Answer α}

/-- **The calls of each thread** are made one by one, in every orderly run. -/
theorem oneByOne_of_threads {acts : List (ThreadAct ι σ τ)} {t : ThreadSys ι σ τ α}
    (hreg : Serves cfg reg) (hdist : ∀ i, Distinct cfg i)
    (hfew : ∀ i, acts.countP (ThreadAct.isCallOf i) < 2 ^ 32 - 1)
    (htyped : ∀ i, (ps i).Calls (RemoteCall.Typed (methods cfg reg)))
    (horderly : Steps (ThreadSys.step cfg reg) (ThreadSys.Orderly cfg) (.init ps x₀) acts)
    (hexec : exec (ThreadSys.step cfg reg) (.init ps x₀) acts = some t) {i : ι}
    (hstale : NoStale (cfg.cltNonce i) (arrivals t.remote.sys.log)) (hok : t.failed = false) :
    OneByOne cfg i t.remote.sys := by
  obtain ⟨acts', hexec', hobj, -, hclients, htypes⟩ :=
    exists_regular hdist hfew htyped horderly hexec
  have hordered := ordered_of_exec hreg hclients htypes hobj hexec'
  obtain ⟨lin, hlin⟩ := hordered.explained
  obtain ⟨calls, hcalls⟩ := inTurn_of_exec hexec hok i
  refine ⟨hordered.based i, hcalls.one, fun q hq => ?_, (hclients i).once hexec' hstale⟩
  -- the call is in progress, or has returned a result
  have hseen : .invoked (i, q) ∈ seenOf i t.remote.sys.log :=
    List.mem_filter.2 ⟨mem_history_invoked.2 hq, decide_eq_true rfl⟩
  rw [hcalls.seen, List.mem_append] at hseen
  refine hseen.imp (fun hmem => ?_) fun hmem => ?_
  · obtain ⟨q', hq', heq⟩ := List.mem_map.1 hmem
    obtain ⟨-, rfl⟩ := Prod.mk.inj (Seen.invoked.inj heq)
    exact hq'
  · obtain ⟨e, he, heq⟩ := List.mem_map.1 (invoked_mem_exchanges.1 hmem)
    have hret : .returned e.1 e.2 ∈ seenOf i t.remote.sys.log := by
      rw [hcalls.seen]
      exact List.mem_append_right _ (returned_mem_exchanges he)
    have hin := hlin.linearization.returned _ _ (List.mem_filter.1 hret).1
    exact hlin.one_le (hordered.based i) (heq ▸ List.mem_map_of_mem hin)

/-! ## Who is inside -/

/-- Those inside a method are jobs at their handlers. -/
structure Remote.Inside (cfg : Config ι (σ × τ)) (r : Remote ι σ τ) : Prop where
  count_le : ∀ j, r.inside.count j ≤ r.sys.jobs.count j
  atMethod : ∀ j ∈ r.inside, inMethod cfg j = true

variable {r r' : Remote ι σ τ}

/-- A step of the system. -/
theorem Remote.Inside.act (h : r.Inside cfg) {b : Action ι τ}
    (hs : r.step cfg reg (.net (.act b)) = some r') : r'.Inside cfg := by
  have hle := count_jobs_le (Sys.move_of_step (Remote.step_act hs))
  have hinside := (Remote.step_net hs).2.2
  have hpicked : r.returning cfg (.act b) = (r.sys.picked (b.on r.obj)).filter (inMethod cfg) := by
    cases b <;> rfl
  rw [hpicked] at hinside
  cases hpick : r.sys.picked (b.on r.obj) with
  | none =>
    rw [hpick] at hinside hle
    refine ⟨fun j => ?_, hinside ▸ h.atMethod⟩
    rw [hinside]
    exact (h.count_le j).trans (hle j)
  | some d =>
    rw [hpick] at hinside hle
    by_cases hd : inMethod cfg d = true
    · -- its thread comes out
      rw [Option.filter_some_pos hd] at hinside
      refine ⟨fun j => ?_, fun j hj => h.atMethod j (List.mem_of_mem_erase (hinside ▸ hj))⟩
      have hin := h.count_le j
      have hjobs := hle j
      rw [hinside]
      show (r.inside.erase d).count j ≤ _
      rw [List.count_erase]
      simp only [beq_iff_eq, Option.some.injEq] at hjobs ⊢
      omega
    · rw [Option.filter_some_neg (Bool.eq_false_of_not_eq_true hd)] at hinside
      refine ⟨fun j => ?_, hinside ▸ h.atMethod⟩
      rw [hinside]
      show r.inside.count j ≤ _
      have hjobs := hle j
      by_cases hj : d = j
      · subst hj
        rw [List.count_eq_zero.2 fun hmem => hd (h.atMethod d hmem)]
        exact Nat.zero_le _
      · rw [if_neg fun heq => hj (Option.some.inj heq)] at hjobs
        exact (h.count_le j).trans hjobs

/-- An entry. -/
theorem Remote.Inside.enter (h : r.Inside cfg) {k : ℕ}
    (hs : r.step cfg reg (.enter k) = some r') : r'.Inside cfg := by
  obtain ⟨j, hj, hlt, rfl⟩ := Remote.step_enter hs
  refine ⟨fun d => ?_, List.forall_mem_cons.2 ⟨hj, h.atMethod⟩⟩
  show (j :: r.inside).count d ≤ r.sys.jobs.count d
  have hle := h.count_le d
  rw [List.count_cons]
  by_cases hd : j = d
  · subst hd
    simp only [beq_self_eq_true, if_true]
    omega
  · simp only [beq_iff_eq, if_neg hd]
    exact hle

/-- There are no more of them than jobs at a handler. -/
theorem Remote.Inside.length_le (h : r.Inside cfg) :
    r.inside.length ≤ r.sys.jobs.countP fun j => j.phase.isHandler := by
  have hsub : r.inside.Subperm r.sys.jobs := List.subperm_ext_iff.2 fun j _ => h.count_le j
  have hall : r.inside.countP (fun j => j.phase.isHandler) = r.inside.length := by
    refine List.countP_eq_length.2 fun j hj => ?_
    have hin := h.atMethod j hj
    rw [inMethod] at hin
    cases hphase : j.phase <;> rw [hphase] at hin <;> trivial
  rw [← hall]
  exact hsub.countP_le _

/-- **Every orderly run.** -/
theorem inside_of_exec {acts : List (RemoteAct ι σ τ)}
    (horderly : Steps (Remote.step cfg reg) (Remote.Orderly cfg) (.init x₀) acts)
    (hexec : exec (Remote.step cfg reg) (.init x₀) acts = some r) : r.Inside cfg := by
  have hinit : (Remote.init x₀ : Remote ι σ τ).Inside cfg :=
    ⟨fun _ => Nat.zero_le _, fun j hj => absurd hj List.not_mem_nil⟩
  have hstep : ∀ (r : Remote ι σ τ) a r', r.Tidy cfg ∧ r.Inside cfg → r.Orderly cfg a →
      r.step cfg reg a = some r' → r'.Tidy cfg ∧ r'.Inside cfg := by
    intro r a r' h horderly hs
    obtain ⟨htidy, ⟨b, rfl, -⟩ | ⟨⟨k, rfl⟩, -⟩⟩ := h.1.step horderly hs
    · exact ⟨htidy, h.2.act hs⟩
    · exact ⟨htidy, h.2.enter hs⟩
  exact (exec_invariant_of_steps hstep ⟨Remote.tidy_init, hinit⟩ horderly hexec).2

end

/-! ## One thread -/

/-- No buffer is freed that a dispatch has yet to send. -/
def ThreadSys.KeepsUsed (cfg : Config ι (σ × τ)) (s : ThreadSys ι σ τ α) : ThreadAct ι σ τ → Prop
  | .net (.net a) => s.remote.toBufSys.KeepsUsed cfg (a.on s.remote.obj)
  | _ => True

instance [DecidableEq ι] (cfg : Config ι (σ × τ)) (s : ThreadSys ι σ τ α) (a : ThreadAct ι σ τ) :
    Decidable (s.KeepsUsed cfg a) :=
  match a with
  | .net (.net a) =>
    inferInstanceAs (Decidable (s.remote.toBufSys.KeepsUsed cfg (a.on s.remote.obj)))
  | .net (.enter _) => isTrue trivial
  | .net (.race _) => isTrue trivial
  | .call _ => isTrue trivial
  | .finish _ _ => isTrue trivial

theorem NoStale.mono {n : UInt32} {hs hs' : List ReqHeader} (h : NoStale n hs)
    (hsub : hs'.Sublist hs) : NoStale n hs' :=
  fun x late ack early hlate => h x late ack early (hlate.trans hsub)

section

variable [DecidableEq ι] {cfg : Config ι (σ × τ)} {reg : Int32 → Option (Method σ τ)}

/-- The record grows. -/
theorem Remote.log_suffix {r r' : Remote ι σ τ} {a : RemoteAct ι σ τ}
    (hs : r.step cfg reg a = some r') : r.sys.log <:+ r'.sys.log := by
  cases a with
  | net a =>
    cases a with
    | act b =>
      rcases Sys.log_move (Sys.move_of_step (Remote.step_act hs)) with heq | ⟨e, heq, -⟩
      · exact heq ▸ List.suffix_rfl
      · exact heq ▸ List.suffix_cons e _
    | reused k b =>
      rcases (BufSys.frame_reused (Remote.step_net hs).1).2 with heq | ⟨c, h, heq⟩
      · exact heq ▸ List.suffix_rfl
      · exact heq ▸ List.suffix_cons _ _
  | enter k =>
    obtain ⟨j, -, -, rfl⟩ := Remote.step_enter hs
    exact List.suffix_rfl
  | race x =>
    rw [Remote.step] at hs
    split at hs
    · obtain rfl := Option.some.inj hs
      exact List.suffix_rfl
    · cases hs

theorem ThreadSys.Move.log_suffix {s s' : ThreadSys ι σ τ α} {a : ThreadAct ι σ τ}
    (hm : ThreadSys.Move cfg reg s a s') : s.remote.sys.log <:+ s'.remote.sys.log := by
  cases hm with
  | refuse => exact List.suffix_rfl
  | call i c next r q hthread hidle hr => exact Remote.log_suffix hr
  | finish i xid c next r ca hthread hr => exact Remote.log_suffix hr
  | net b r ha hr => exact Remote.log_suffix hr

end

variable {cfg : Config Unit (σ × τ)} {reg : Int32 → Option (Method σ τ)} {x₀ : σ}
variable {p : Prog RemoteCall Answer α}

/-- **With one thread, one method at a time.** A run in which no buffer is
freed that is yet to be sent is orderly, where no stale copy arrives and no
call fails. -/
theorem orderly_of_keepsUsed {acts : List (ThreadAct Unit σ τ)} {t : ThreadSys Unit σ τ α}
    (hreg : Serves cfg reg) (hdist : Distinct cfg ())
    (hfew : acts.countP (ThreadAct.isCallOf ()) < 2 ^ 32 - 1)
    (htyped : p.Calls (RemoteCall.Typed (methods cfg reg)))
    (hkeeps : Steps (ThreadSys.step cfg reg) (ThreadSys.KeepsUsed cfg) (.init (fun _ => p) x₀) acts)
    (hexec : exec (ThreadSys.step cfg reg) (.init (fun _ => p) x₀) acts = some t)
    (hstale : NoStale (cfg.cltNonce ()) (arrivals t.remote.sys.log)) (hok : t.failed = false) :
    Steps (ThreadSys.step cfg reg) (ThreadSys.Orderly cfg) (.init (fun _ => p) x₀) acts := by
  -- by induction on the run, from its last step back
  induction acts using List.reverseRecOn generalizing t with
  | nil => trivial
  | append_singleton acts a ih =>
    rw [exec_append] at hexec
    obtain ⟨s, hs, hlast⟩ := Option.bind_eq_some_iff.1 hexec
    obtain ⟨t', ht', heq⟩ := exec_cons_eq_some.1 hlast
    obtain rfl := Option.some.inj heq
    have hm := ThreadSys.move_of_step ht'
    obtain ⟨hkeeps, hkeepsLast⟩ := steps_append.1 hkeeps
    rw [List.countP_append] at hfew
    have hstale' := hstale.mono (hm.log_suffix.filterMap Event.arrival).sublist
    have hfew' : acts.countP (ThreadAct.isCallOf ()) < 2 ^ 32 - 1 := by omega
    have horderly := ih hfew' hkeeps hs hstale' (hm.failed hok)
    refine steps_append.2 ⟨horderly, fun u hu => ⟨?_, fun _ _ => trivial⟩⟩
    obtain rfl := Option.some.inj (hs.symm.trans hu)
    cases a with
    | call i => trivial
    | finish i xid => trivial
    | net a =>
      cases a with
      | net b => exact (hkeepsLast s hs).1
      | race x => trivial
      | enter k =>
        -- were another inside, there would be two jobs at the handler
        have hone := (oneByOne_of_threads hreg (fun _ => hdist) (fun _ => hfew')
          (fun _ => htyped) horderly hs hstale' (hm.failed hok)).countP_le_one
        obtain ⟨acts', hexec', horderly', -⟩ := exists_remote (fun _ => htyped) horderly hs
        have hinside := inside_of_exec horderly' hexec'
        cases hm with
        | net b r ha hr =>
          have hlen := (hinside.enter hr).length_le
          obtain ⟨j, -, -, rfl⟩ := Remote.step_enter hr
          have hall : s.remote.sys.jobs.countP (fun j => j.phase.isHandler) ≤
              s.remote.sys.jobs.countP (Job.inHandlerFor ()) :=
            List.countP_mono_left fun j _ hj => Bool.and_eq_true_iff.2 ⟨decide_eq_true rfl, hj⟩
          have hcons : s.remote.inside.length + 1 ≤
              s.remote.sys.jobs.countP fun j => j.phase.isHandler := hlen
          exact List.eq_nil_of_length_eq_zero (by omega)

end Rpc

end Yfs
