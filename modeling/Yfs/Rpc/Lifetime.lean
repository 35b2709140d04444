import Yfs.Rpc.Arrivals

/-!
# How long the entry of a request lives

From its classification as `NEW` or `DONE` until its reply is sent, a
dispatch uses the entry of its request: `add_reply` fills it, and what is
sent is the buffer in it. But an entry is pruned when a request
acknowledges it, and a client acknowledges a call that timed out while the
server still works on it. `entriesKept_iff` says that this is the only way
in which a dispatch loses its entry. Nothing is assumed of the clients
here.
-/

namespace Yfs

open Common

namespace Rpc

variable {ι Ω : Type}

/-- The dispatch has been classified as `NEW` or `DONE`, and its reply is
not sent yet. -/
def Phase.active : Phase ι → Bool
  | .handler => true
  | .addReply _ => true
  | .choose _ => true
  | .send _ (some .new) _ => true
  | .send _ (some .done) _ => true
  | _ => false

/-- What the dispatch takes the entry to be: in progress, or filled with
the reply to be sent. -/
def Phase.Wants : Phase ι → ReplyT → Prop
  | .handler, e => e.cbPresent = false
  | .addReply _, e => e.cbPresent = false
  | .choose b, e => e.cbPresent = true ∧ e.buf = b
  | .send _ _ b, e => e.cbPresent = true ∧ e.buf = b
  | _, _ => True

/-- Every active dispatch has exactly one entry for its request, and it is
as the dispatch takes it to be. -/
def EntriesKept (cfg : Config ι Ω) (s : Sys ι Ω) : Prop :=
  ∀ j ∈ s.jobs, j.phase.active = true → ∀ n x, (Sys.header cfg j).IsFor n x → n ≠ 0 →
    ∃ e, (s.replyWindow n).filter (fun e => decide (e.xid = x)) = [e] ∧ j.phase.Wants e

/-- The request to be classified does not acknowledge a request that is
being dispatched. -/
def NoPrune (cfg : Config ι Ω) (s : Sys ι Ω) (a : Action ι Ω) : Prop :=
  ∀ j, s.picked a = some j → j.phase = .check → ∀ d ∈ s.jobs, d.phase.active = true →
    ∀ n x, (Sys.header cfg d).IsFor n x → n ≠ 0 → ¬ (Sys.header cfg j).Acks n x

/-- The thread is about to fill the entry. -/
def Phase.fills : Phase ι → Bool
  | .handler => true
  | .addReply _ => true
  | _ => false

/-- The job is about to fill the entry for the request `x`. -/
def Job.fills (cfg : Config ι Ω) (n : UInt32) (x : ℕ) (j : Job ι) : Bool :=
  j.phase.fills && decide ((Sys.header cfg j).IsFor n x)

/-- The invariant: no xid has two entries, no entry will be filled twice,
and every active dispatch has its entry. -/
structure Live (cfg : Config ι Ω) (s : Sys ι Ω) : Prop where
  nodup : ∀ n, ((s.replyWindow n).map (·.xid)).Nodup
  single : ∀ n x, n ≠ 0 → s.jobs.countP (Job.fills cfg n x) ≤ 1
  has : ∀ j ∈ s.jobs, j.phase.active = true → ∀ n x, (Sys.header cfg j).IsFor n x → n ≠ 0 →
    ∃ e ∈ s.replyWindow n, e.xid = x ∧ j.phase.Wants e

variable {cfg : Config ι Ω} {s s' : Sys ι Ω} {a : Action ι Ω}

theorem Phase.active_of_fills {p : Phase ι} (h : p.fills = true) : p.active = true := by
  cases p with
  | handler => rfl
  | addReply b => rfl
  | _ => cases h

theorem live_init : Live cfg (Sys.init : Sys ι Ω) :=
  ⟨by simp [Sys.init], by simp [Sys.init], by simp [Sys.init]⟩

/-- Without a second entry, having one is having exactly one. -/
theorem filter_eq_singleton {l : List ReplyT} (hl : (l.map (·.xid)).Nodup) {e : ReplyT}
    (he : e ∈ l) : l.filter (fun d => decide (d.xid = e.xid)) = [e] := by
  induction l with
  | nil => cases he
  | cons d l ih =>
    rw [List.map_cons, List.nodup_cons] at hl
    rcases List.mem_cons.1 he with rfl | he
    · have hnone : l.filter (fun d => decide (d.xid = e.xid)) = [] := by
        refine List.filter_eq_nil_iff.2 fun d hd hx => hl.1 ?_
        exact List.mem_map.2 ⟨d, hd, of_decide_eq_true hx⟩
      rw [List.filter_cons_of_pos (by simp), hnone]
    · have hne : ¬ d.xid = e.xid := fun hx => hl.1 (List.mem_map.2 ⟨e, he, hx.symm⟩)
      rw [List.filter_cons_of_neg (by simpa using hne), ih hl.2 he]

theorem Live.entriesKept (h : Live cfg s) : EntriesKept cfg s := by
  intro j hj hact n x hx hn
  obtain ⟨e, he, rfl, hwants⟩ := h.has j hj hact n x hx hn
  exact ⟨e, filter_eq_singleton (h.nodup n) he, hwants⟩

/-! ## One step -/

/-- A step of one job that leaves the window alone. -/
theorem Live.goto (h : Live cfg s) {j : Job ι} {rest : List (Job ι)} {p : Phase ι}
    (hperm : s.jobs.Perm (j :: rest)) (hwindow : s'.replyWindow = s.replyWindow)
    (hjobs : s'.jobs = j.goto p :: rest)
    (hfills : ∀ n x, n ≠ 0 → Job.fills cfg n x (j.goto p) = true → Job.fills cfg n x j = true)
    (hhas : p.active = true → ∀ n, (Sys.header cfg j).cltNonce = n → n ≠ 0 →
      j.phase.active = true ∧ ∀ e, j.phase.Wants e → p.Wants e) : Live cfg s' := by
  refine ⟨hwindow ▸ h.nodup, fun n x hn => ?_, fun d hd hact n x hx hn => ?_⟩
  · have hle := h.single n x hn
    rw [hperm.countP_eq, List.countP_cons] at hle
    rw [hjobs, List.countP_cons]
    by_cases hf : Job.fills cfg n x (j.goto p) = true
    · rw [if_pos hf]
      rwa [if_pos (hfills n x hn hf)] at hle
    · rw [if_neg hf]
      omega
  · rw [hjobs] at hd
    rw [hwindow]
    rcases List.mem_cons.1 hd with rfl | hd
    · obtain ⟨hj, hw⟩ := hhas hact n hx.1 hn
      obtain ⟨e, he, hex, hwants⟩ := h.has j ((mem_of_pick hperm).2 (.inl rfl)) hj n x hx hn
      exact ⟨e, he, hex, hw e hwants⟩
    · exact h.has d ((mem_of_pick hperm).2 (.inr hd)) hact n x hx hn

/-- A job ends. -/
theorem Live.quit (h : Live cfg s) {j : Job ι} {rest : List (Job ι)}
    (hperm : s.jobs.Perm (j :: rest)) (hwindow : s'.replyWindow = s.replyWindow)
    (hjobs : s'.jobs = rest) : Live cfg s' := by
  refine ⟨hwindow ▸ h.nodup, fun n x hn => ?_, fun d hd hact n x hx hn => ?_⟩
  · have hle := h.single n x hn
    rw [hperm.countP_eq, List.countP_cons] at hle
    rw [hjobs]
    omega
  · rw [hwindow]
    exact h.has d ((mem_of_pick hperm).2 (.inr (hjobs ▸ hd))) hact n x hx hn

/-- A request is classified that acknowledges no active dispatch. -/
theorem Live.check (h : Live cfg s) {j : Job ι} {rest : List (Job ι)}
    (hperm : s.jobs.Perm (j :: rest))
    (hno : ∀ d ∈ s.jobs, d.phase.active = true → ∀ n x, (Sys.header cfg d).IsFor n x → n ≠ 0 →
      ¬ (Sys.header cfg j).Acks n x) : Live cfg (s.check cfg j rest) := by
  obtain ⟨r, hc, heq⟩ := Sys.classified_check cfg s j rest
  rw [heq]
  have hrest : ∀ n x, n ≠ 0 → rest.countP (Job.fills cfg n x) ≤ 1 := by
    intro n x hn
    have hle := h.single n x hn
    rw [hperm.countP_eq, List.countP_cons] at hle
    omega
  -- the others keep their entries
  have hothers : ∀ d ∈ rest, d.phase.active = true → ∀ n x, (Sys.header cfg d).IsFor n x → n ≠ 0 →
      ∃ e ∈ (if n = (Sys.header cfg j).cltNonce then r.1 else s.replyWindow n),
        e.xid = x ∧ d.phase.Wants e := by
    intro d hd hact n x hx hn
    have hds : d ∈ s.jobs := (mem_of_pick hperm).2 (.inr hd)
    obtain ⟨e, he, hex, hwants⟩ := h.has d hds hact n x hx hn
    split
    · rename_i hn'
      subst hn'
      have hack := hno d hds hact _ x hx hn
      simp only [ReqHeader.Acks, true_and, Nat.not_le] at hack
      exact ⟨e, hc.mem_of_lt he (hex ▸ hack), hex, hwants⟩
    · exact ⟨e, he, hex, hwants⟩
  refine ⟨fun n => ?_, fun n x hn => ?_, fun d hd hact n x hx hn => ?_⟩
  · dsimp only
    split
    · exact hc.nodup (h.nodup _)
    · exact h.nodup n
  · dsimp only
    cases hc with
    | new hnone =>
      rw [List.countP_cons]
      by_cases hf : Job.fills cfg n x (j.goto .handler) = true
      · -- no other job fills an entry that was not there
        have hx : (Sys.header cfg j).IsFor n x := of_decide_eq_true (Bool.and_eq_true_iff.1 hf).2
        have hzero : rest.countP (Job.fills cfg n x) = 0 := by
          refine List.countP_eq_zero.2 fun d hd hdf => ?_
          obtain ⟨hdp, hdx⟩ := Bool.and_eq_true_iff.1 hdf
          obtain ⟨e, he, hex, -⟩ := h.has d ((mem_of_pick hperm).2 (.inr hd))
            (Phase.active_of_fills hdp) n x (of_decide_eq_true hdx) hn
          exact hnone e (hx.1 ▸ he) (hex.trans hx.2.symm)
        rw [if_pos hf, hzero]
      · rw [if_neg hf]
        exact hrest n x hn
    | inprogress => exact hrest n x hn
    | done => simpa [Job.fills, Job.goto, Phase.fills] using hrest n x hn
    | forgotten => simpa [Job.fills, Job.goto, Phase.fills] using hrest n x hn
  · dsimp only at hd ⊢
    cases hc with
    | new hnone =>
      rcases List.mem_cons.1 hd with rfl | hd
      · rw [Sys.header_goto] at hx
        obtain ⟨rfl, rfl⟩ := hx
        rw [if_pos rfl]
        exact ⟨_, List.mem_append_right _ List.mem_cons_self, rfl, rfl⟩
      · exact hothers d hd hact n x hx hn
    | inprogress => exact hothers d hd hact n x hx hn
    | done e he hex hp hlt =>
      rcases List.mem_cons.1 hd with rfl | hd
      · rw [Sys.header_goto] at hx
        obtain ⟨rfl, rfl⟩ := hx
        rw [if_pos rfl]
        exact ⟨e, List.mem_filter.2 ⟨he, decide_eq_true (by omega)⟩, hex, hp, rfl⟩
      · exact hothers d hd hact n x hx hn
    | forgotten =>
      rcases List.mem_cons.1 hd with rfl | hd
      · cases hact
      · exact hothers d hd hact n x hx hn

/-- A job that fills its entry is the only one that uses it. -/
theorem Live.addReply (h : Live cfg s) {j : Job ι} {rest : List (Job ι)} {b : List UInt8}
    (hperm : s.jobs.Perm (j :: rest)) (hphase : j.phase = .addReply b) :
    Live cfg (s.storeReply cfg j rest b) := by
  have hj : j ∈ s.jobs := (mem_of_pick hperm).2 (.inl rfl)
  refine ⟨fun n => ?_, fun n x hn => ?_, fun d hd hact n x hx hn => ?_⟩
  · by_cases hn : (Sys.header cfg j).cltNonce = n
    · rw [Sys.storeReply_replyWindow hn, map_xid_addReply]
      exact h.nodup n
    · rw [Sys.storeReply_replyWindow_of_ne hn]
      exact h.nodup n
  · have hle := h.single n x hn
    rw [hperm.countP_eq, List.countP_cons] at hle
    show (j.goto (.choose b) :: rest).countP (Job.fills cfg n x) ≤ 1
    simp only [List.countP_cons, Job.fills, Job.goto, Phase.fills, Bool.false_and,
      Bool.false_eq_true, if_false]
    omega
  · by_cases hnj : (Sys.header cfg j).cltNonce = n
    · -- the entry that is filled, which is in progress
      obtain ⟨e, he, hex, hwants⟩ := h.has j hj (by rw [hphase]; rfl) n _ ⟨hnj, rfl⟩ hn
      rw [hphase] at hwants
      rw [Sys.storeReply_replyWindow hnj]
      rcases List.mem_cons.1 hd with rfl | hd
      · obtain ⟨-, rfl⟩ := hx
        refine ⟨{ e with buf := b, cbPresent := true }, List.mem_map.2 ⟨e, he, if_pos hex⟩, hex,
          rfl, rfl⟩
      · obtain ⟨e', he', hex', hwants'⟩ :=
          h.has d ((mem_of_pick hperm).2 (.inr hd)) hact n x hx hn
        by_cases hxj : x = (Sys.header cfg j).xid.toUInt32.toNat
        · exfalso
          obtain rfl := List.inj_on_of_nodup_map (h.nodup n) he he'
            (hex.trans (hxj.symm.trans hex'.symm))
          by_cases hf : d.phase.fills = true
          · -- two jobs would fill it
            have hle := h.single n x hn
            have hpos : 1 ≤ rest.countP (Job.fills cfg n x) := by
              refine List.countP_pos_iff.2 ⟨d, hd, ?_⟩
              rw [Job.fills, hf, Bool.true_and]
              exact decide_eq_true hx
            have hself : Job.fills cfg n x j = true := by
              rw [Job.fills, hphase]
              exact decide_eq_true ⟨hnj, hxj.symm⟩
            rw [hperm.countP_eq, List.countP_cons, if_pos hself] at hle
            omega
          · -- it would be filled already
            have hfilled : e.cbPresent = true := by
              cases hp : d.phase with
              | handler => rw [hp] at hf; exact absurd rfl hf
              | addReply b => rw [hp] at hf; exact absurd rfl hf
              | choose b => rw [hp] at hwants'; exact hwants'.1
              | send c st b => rw [hp] at hwants'; exact hwants'.1
              | queued => rw [hp] at hact; cases hact
              | check => rw [hp] at hact; cases hact
            have hwait : e.cbPresent = false := hwants
            rw [hfilled] at hwait
            cases hwait
        · refine ⟨e', List.mem_map.2 ⟨e', he', if_neg ?_⟩, hex', hwants'⟩
          rw [hex']
          exact hxj
    · rw [Sys.storeReply_replyWindow_of_ne hnj]
      rcases List.mem_cons.1 hd with rfl | hd
      · exact absurd hx.1 hnj
      · exact h.has d ((mem_of_pick hperm).2 (.inr hd)) hact n x hx hn

/-- **One step.** -/
theorem Live.step [DecidableEq ι] (h : Live cfg s) (hno : NoPrune cfg s a)
    (hm : Sys.Move cfg s a s') : Live cfg s' := by
  cases hm with
  | recv k c b rest hperm hlen =>
    refine ⟨h.nodup, fun n x hn => ?_, fun d hd hact n x hx hn => ?_⟩
    · show (⟨c, b, .queued⟩ :: s.jobs).countP (Job.fills cfg n x) ≤ 1
      simpa [Job.fills, Phase.fills] using h.single n x hn
    · rcases List.mem_cons.1 hd with rfl | hd
      · cases hact
      · exact h.has d hd hact n x hx hn
  | reject k w j rest hpick hperm => exact h.quit hperm rfl rfl
  | oldsrv k w j rest hpick hperm =>
    exact h.goto hperm rfl rfl (fun n x hn hf => by cases hf) fun hact => by cases hact
  | accept k w j rest hpick hperm =>
    exact h.goto hperm rfl rfl (fun n x hn hf => by cases hf) fun hact => by cases hact
  | anonymous k w j rest hpick hperm hphase hok hnonce =>
    refine h.goto hperm rfl rfl (fun n x hn hf => ?_) fun _ n hn' hn => ?_
    · have hx := of_decide_eq_true (Bool.and_eq_true_iff.1 hf).2
      exact absurd (hx.1.symm.trans hnonce) hn
    · exact absurd (hn'.symm.trans hnonce) hn
  | check k w j rest hpick hperm hphase => exact h.check hperm (hno j hpick hphase)
  | handler k w j rest f b hpick hperm hphase =>
    refine h.goto hperm rfl rfl (fun n x hn hf => ?_) fun _ n hn' hn => ?_
    · rw [Job.fills, hphase]
      exact (Bool.and_eq_true_iff.1 hf).2
    · rw [hphase, if_pos (hn' ▸ hn)]
      exact ⟨rfl, fun e he => he⟩
  | addReply k w j rest b hpick hperm hphase => exact h.addReply hperm hphase
  | choose k w j rest b c hpick hperm hphase hc =>
    refine h.goto hperm rfl rfl (fun n x hn hf => by cases hf) fun _ n _ _ => ?_
    rw [hphase]
    exact ⟨rfl, fun e he => he⟩
  | send k w j rest c st b hpick hperm => exact h.quit hperm rfl rfl
  | _ => exact ⟨h.nodup, h.single, h.has⟩

/-- The entry of an active dispatch that is acknowledged is gone. -/
theorem Live.not_mem_check (h : Live cfg s) {j d : Job ι} {rest : List (Job ι)} {n : UInt32} {x : ℕ}
    (hd : d ∈ s.jobs) (hact : d.phase.active = true) (hx : (Sys.header cfg d).IsFor n x)
    (hn : n ≠ 0) (hack : (Sys.header cfg j).Acks n x) :
    ∀ e ∈ (s.check cfg j rest).replyWindow n, e.xid ≠ x := by
  obtain ⟨r, hc, heq⟩ := Sys.classified_check cfg s j rest
  obtain ⟨rfl, hle⟩ := hack
  obtain ⟨e₀, he₀, hex₀, -⟩ := h.has d hd hact _ x hx hn
  have hgone : ∀ e ∈ (s.replyWindow (Sys.header cfg j).cltNonce).filter
      (fun e => decide ((Sys.header cfg j).xidRep.toUInt32.toNat < e.xid)), e.xid ≠ x := by
    intro e he
    have := of_decide_eq_true (List.mem_filter.1 he).2
    omega
  rw [heq]
  dsimp only
  rw [if_pos rfl]
  cases hc with
  | new hnone =>
    intro e he
    rcases List.mem_append.1 he with he | he
    · exact hgone e he
    · -- the new entry is for another request, as this one had an entry
      obtain rfl := List.mem_singleton.1 he
      exact fun hex => hnone e₀ he₀ (hex₀.trans hex.symm)
  | inprogress => exact hgone
  | done => exact hgone
  | forgotten => exact hgone

theorem mem_check_jobs {j d : Job ι} {rest : List (Job ι)} (hd : d ∈ rest) :
    d ∈ (s.check cfg j rest).jobs := by
  obtain ⟨r, -, heq⟩ := Sys.classified_check cfg s j rest
  rw [heq]
  dsimp only
  split
  · exact List.mem_cons_of_mem _ hd
  · exact hd
  · exact List.mem_cons_of_mem _ hd
  · exact List.mem_cons_of_mem _ hd

/-- A step after which every active dispatch has its entry prunes none. -/
theorem Live.noPrune [DecidableEq ι] (h : Live cfg s)
    (hafter : ∀ s', s.step cfg a = some s' → EntriesKept cfg s') : NoPrune cfg s a := by
  intro j hpick hphase d hd hact n x hx hn hack
  cases a with
  | dispatch k w =>
    have hk : s.jobs[k]? = some j := hpick
    have hstep : s.step cfg (.dispatch k w) = some (s.check cfg j (s.jobs.eraseIdx k)) := by
      simp only [Sys.step, Sys.dispatch, hk, hphase]
    have hrest : d ∈ s.jobs.eraseIdx k := by
      refine ((mem_of_pick (perm_eraseIdx hk)).1 hd).resolve_left ?_
      rintro rfl
      rw [hphase] at hact
      cases hact
    obtain ⟨e, hfilter, -⟩ := hafter _ hstep d (mem_check_jobs hrest) hact n x hx hn
    have he := List.mem_filter.1 (hfilter ▸ List.mem_cons_self : e ∈ List.filter _ _)
    exact h.not_mem_check hd hact hx hn hack e he.1 (of_decide_eq_true he.2)
  | _ => cases hpick

/-- **Entries outlive the dispatches that use them** along a run if and
only if no request is classified that acknowledges a request which is being
dispatched. -/
theorem entriesKept_iff [DecidableEq ι] (cfg : Config ι Ω) (acts : List (Action ι Ω)) :
    Along (Sys.step cfg) (EntriesKept cfg) .init acts ↔
      Steps (Sys.step cfg) (NoPrune cfg) .init acts :=
  along_iff_steps (fun _ h => h.entriesKept)
    (fun _ _ _ h hno hs => h.step hno (Sys.move_of_step hs)) (fun _ _ h => h.noPrune) live_init

/-- The call 2 is found new and times out before its handler runs; the
call 3 acknowledges it. -/
def prunedRun : List (Action Unit Unit) :=
  bindFirst ++ ask 2 2 ++ serve 2 ++ [.finish () 2] ++ ask 2 3 ++ serve 2

theorem not_entriesKept_prunedRun : (∀ i, Regular oneClient i prunedRun) ∧
    ¬ Along (Sys.step oneClient) (EntriesKept oneClient) .init prunedRun := by
  have h : (exec (Sys.step oneClient) .init prunedRun).any (fun s =>
      (s.replyWindow 7).all (fun e => decide (e.xid ≠ 2)) && s.jobs.any fun j =>
        j.phase.active && decide ((Sys.header oneClient j).IsFor 7 2)) = true := by
    decide +kernel
  obtain ⟨s, hs, hboth⟩ := (Option.any_eq_true _ _).1 h
  obtain ⟨hall, hany⟩ := Bool.and_eq_true_iff.1 hboth
  obtain ⟨j, hj, hjob⟩ := List.any_eq_true.1 hany
  obtain ⟨hact, hx⟩ := Bool.and_eq_true_iff.1 hjob
  refine ⟨regular_oneClient (by decide), fun halong => ?_⟩
  obtain ⟨e, hfilter, -⟩ := halong.last hs j hj hact 7 2 (of_decide_eq_true hx) (by decide)
  have he := List.mem_filter.1 (hfilter ▸ List.mem_cons_self : e ∈ List.filter _ _)
  exact of_decide_eq_true (List.all_eq_true.1 hall e he.1) (of_decide_eq_true he.2)

end Rpc

end Yfs
