import Yfs.Rpc.Genuine
import Yfs.Rpc.Lifetime
import Yfs.Rpc.Pending

/-!
# The memory of reply buffers

`dispatch` has the reply in a buffer on the heap, `add_reply` stores a
pointer to it in the entry of the request, and a duplicate that finds the
request done gets the same pointer. Pruning an entry frees its buffer, and
`send` does not ask whether it was freed: when the memory has been given to
another reply by then, it is this other reply that goes out. Here the
system is there with its buffers (`BufSys`), which have numbers instead of
addresses, and what a freed buffer holds when it is sent may be anything.

Where no buffer is freed that a dispatch has yet to send (`KeepsUsed`), a
run is a run of the system in which a buffer is its contents (`exec_sys`),
and what is known of those is known of it. Otherwise a client can be given
the reply to another client's call.
-/

namespace Yfs

open Common

namespace Rpc

variable {ι Ω : Type}

/-- Where the reply buffers are. `malloc` gives each a number of its own. -/
structure Buffers where
  /-- `b1` of each job, in the order of the jobs. -/
  b1 : List (Option ℕ)
  /-- `reply_t::buf` of the entry for a request, if there is one. -/
  buf : UInt32 → ℕ → Option ℕ
  /-- What `free` was called on. -/
  freed : List ℕ
  /-- The number of buffers made so far. -/
  count : ℕ

namespace Buffers

/-- What `checkduplicate_and_update` returns for the request of a job. -/
def found (cfg : Config ι Ω) (s : Sys ι Ω) (j : Job ι) : RpcState :=
  let h := Sys.header cfg j
  (checkduplicateAndUpdate (s.replyWindow h.cltNonce) h.xid.toUInt32.toNat
    h.xidRep.toUInt32.toNat).2.1

/-- The buffers of the entries that it prunes. -/
def frees (m : Buffers) (cfg : Config ι Ω) (s : Sys ι Ω) (j : Job ι) : List ℕ :=
  let h := Sys.header cfg j
  ((s.replyWindow h.cltNonce).filter fun e => decide (e.xid ≤ h.xidRep.toUInt32.toNat)).filterMap
    fun e => m.buf h.cltNonce e.xid

/-- `checkduplicate_and_update`: what it prunes it frees, and a new entry
has no buffer. -/
def check (m : Buffers) (cfg : Config ι Ω) (s : Sys ι Ω) (j : Job ι) : Buffers :=
  let h := Sys.header cfg j
  { m with
    buf := fun n x =>
      if n = h.cltNonce ∧ (x ≤ h.xidRep.toUInt32.toNat ∨
        (x = h.xid.toUInt32.toNat ∧ found cfg s j = .new)) then none else m.buf n x
    freed := m.frees cfg s j ++ m.freed }

/-- `add_reply`: if the entry is there. -/
def storeReply (m : Buffers) (cfg : Config ι Ω) (s : Sys ι Ω) (j : Job ι) (p : Option ℕ) :
    Buffers :=
  let h := Sys.header cfg j
  { m with
    buf := fun n x =>
      if n = h.cltNonce ∧ x = h.xid.toUInt32.toNat ∧ ∃ e ∈ s.replyWindow n, e.xid = x then p
      else m.buf n x }

/-- The buffer with which a job goes on that had `p`. -/
def goesOn (m : Buffers) (cfg : Config ι Ω) (s : Sys ι Ω) (j : Job ι) (p : Option ℕ) : Option ℕ :=
  let h := Sys.header cfg j
  match j.phase with
  | .queued => none
  | .check => if found cfg s j = .done then m.buf h.cltNonce h.xid.toUInt32.toNat else none
  | .handler => some m.count
  | _ => p

/-- The step of the `k`-th job `j`, from `s` to `s'`. The buffer of a
client with nonce 0 is freed after the send, when nothing points to it. -/
def dispatch (m : Buffers) (cfg : Config ι Ω) (s s' : Sys ι Ω) (k : ℕ) (j : Job ι) : Buffers :=
  let p := m.b1[k]?.join
  let rest := m.b1.eraseIdx k
  let m' := match j.phase with
    | .check => m.check cfg s j
    | .handler => { m with count := m.count + 1 }
    | .addReply _ => m.storeReply cfg s j p
    | _ => m
  { m' with
    b1 := if s'.jobs.length = s.jobs.length then m.goesOn cfg s j p :: rest else rest }

/-- The buffers after an action that leads from `s` to `s'`. -/
def step (m : Buffers) (cfg : Config ι Ω) (s s' : Sys ι Ω) : Action ι Ω → Buffers
  | .recv _ => { m with b1 := none :: m.b1 }
  | .dispatch k _ =>
    match s.jobs[k]? with
    | none => m
    | some j => m.dispatch cfg s s' k j
  | _ => m

end Buffers

/-- The system with its buffers. -/
structure BufSys (ι Ω : Type) where
  sys : Sys ι Ω
  bufs : Buffers

/-- What can happen. -/
inductive BufAct (ι Ω : Type) where
  | act (a : Action ι Ω)
  /-- The `k`-th job sends a buffer that was freed, and whose memory holds
  `b` by now. -/
  | reused (k : ℕ) (b : List UInt8)

/-- The action on the system where a buffer is its contents. -/
def BufAct.toAction : BufAct ι Ω → Option (Action ι Ω)
  | .act a => some a
  | .reused _ _ => none

/-- These actions of a run. -/
def sysActs (acts : List (BufAct ι Ω)) : List (Action ι Ω) := acts.filterMap BufAct.toAction

namespace BufSys

/-- Nothing has happened. -/
def init : BufSys ι Ω := ⟨.init, ⟨[], fun _ _ => none, [], 0⟩⟩

/-- One step. As many bytes are sent as the reply had. -/
def step [DecidableEq ι] (cfg : Config ι Ω) (t : BufSys ι Ω) : BufAct ι Ω → Option (BufSys ι Ω)
  | .act a => (t.sys.step cfg a).map fun s' => ⟨s', t.bufs.step cfg t.sys s' a⟩
  | .reused k b =>
    match t.sys.jobs[k]? with
    | none => none
    | some j =>
      match j.phase with
      | .send c _ b₀ =>
        if b.length = b₀.length ∧ ∃ p ∈ t.bufs.freed, t.bufs.b1[k]? = some (some p) then
          some ⟨t.sys.send cfg j (t.sys.jobs.eraseIdx k) c b,
            { t.bufs with b1 := t.bufs.b1.eraseIdx k }⟩
        else none
      | _ => none

/-- The request to be classified frees no buffer that a dispatch has yet to
send. -/
def KeepsUsed (cfg : Config ι Ω) (t : BufSys ι Ω) : BufAct ι Ω → Prop
  | .act a => ∀ j ∈ t.sys.picked a, j.phase = .check →
      ∀ p ∈ t.bufs.frees cfg t.sys j, some p ∉ t.bufs.b1
  | .reused _ _ => True

instance [DecidableEq ι] (cfg : Config ι Ω) (t : BufSys ι Ω) (a : BufAct ι Ω) :
    Decidable (t.KeepsUsed cfg a) :=
  match a with
  | .act a => inferInstanceAs (Decidable (∀ j ∈ t.sys.picked a, j.phase = .check →
      ∀ p ∈ t.bufs.frees cfg t.sys j, some p ∉ t.bufs.b1))
  | .reused _ _ => isTrue trivial

end BufSys

/-! ## Nothing freed is used -/

/-- The request that a job is for. -/
def keyOf (cfg : Config ι Ω) (j : Job ι) : UInt32 × ℕ :=
  ((Sys.header cfg j).cltNonce, (Sys.header cfg j).xid.toUInt32.toNat)

/-- The buffer was made for the request, and is not freed. -/
def Buffers.Owns (m : Buffers) (own : ℕ → UInt32 × ℕ) (key : UInt32 × ℕ) (p : ℕ) : Prop :=
  own p = key ∧ p < m.count ∧ p ∉ m.freed

/-- The invariant: what is pointed to is not freed, and was made for the
request of what points to it. -/
structure Intact (cfg : Config ι Ω) (own : ℕ → UInt32 × ℕ) (t : BufSys ι Ω) : Prop where
  held : List.Forall₂ (fun j q => ∀ p, q = some p →
    t.bufs.Owns own (keyOf cfg j) p ∧ j.phase.active = true) t.sys.jobs t.bufs.b1
  stored : ∀ n x p, t.bufs.buf n x = some p → t.bufs.Owns own (n, x) p
  freed : ∀ p ∈ t.bufs.freed, p < t.bufs.count
  named : ∀ j ∈ t.sys.jobs, j.phase = .check → (Sys.header cfg j).cltNonce ≠ 0

section

variable {cfg : Config ι Ω} {own own' : ℕ → UInt32 × ℕ} {t : BufSys ι Ω} {s' : Sys ι Ω}

theorem intact_init (own : ℕ → UInt32 × ℕ) : Intact cfg own (BufSys.init : BufSys ι Ω) :=
  ⟨.nil, by simp [BufSys.init], by simp [BufSys.init], by simp [BufSys.init, Sys.init]⟩

/-- What a job points to. -/
theorem Intact.owns (h : Intact cfg own t) {k : ℕ} {j : Job ι} (hk : t.sys.jobs[k]? = some j)
    {p : ℕ} (hp : t.bufs.b1[k]?.join = some p) :
    t.bufs.Owns own (keyOf cfg j) p ∧ j.phase.active = true := by
  obtain ⟨q, hq, howns⟩ := forall₂_getElem? h.held hk
  rw [hq] at hp
  exact howns p hp

/-- The jobs with their buffers, after a step of the `k`-th. -/
theorem Intact.job (h : Intact cfg own t) {k : ℕ} {j : Job ι} {m : Buffers} {g : Option ℕ}
    (hk : t.sys.jobs[k]? = some j)
    (hjobs : s'.jobs = t.sys.jobs.eraseIdx k ∨ ∃ ph, s'.jobs = j.goto ph :: t.sys.jobs.eraseIdx k ∧
      (∀ p, g = some p → m.Owns own' (keyOf cfg j) p ∧ ph.active = true) ∧
      (ph = .check → (Sys.header cfg j).cltNonce ≠ 0))
    (hmono : ∀ p key, some p ∈ t.bufs.b1 → t.bufs.Owns own key p → m.Owns own' key p)
    (hstored : ∀ n x p, m.buf n x = some p → m.Owns own' (n, x) p)
    (hfreed : ∀ p ∈ m.freed, p < m.count) :
    Intact cfg own' ⟨s', { m with
      b1 := if s'.jobs.length = t.sys.jobs.length then g :: t.bufs.b1.eraseIdx k
        else t.bufs.b1.eraseIdx k }⟩ := by
  obtain ⟨hlt, -⟩ := List.getElem?_eq_some_iff.1 hk
  have hlen := List.length_eraseIdx_add_one hlt
  -- the others keep what they have
  have hrest : List.Forall₂ (fun j q => ∀ p, q = some p →
      m.Owns own' (keyOf cfg j) p ∧ j.phase.active = true) (t.sys.jobs.eraseIdx k)
      (t.bufs.b1.eraseIdx k) := by
    have hboth := forall₂_eraseIdx h.held k
    refine (List.forall₂_iff_zip.2 ⟨hboth.length_eq, fun {d q} hdq p hp => ?_⟩)
    obtain ⟨howns, hact⟩ := List.forall₂_zip hboth hdq p hp
    have hmem : some p ∈ t.bufs.b1 := hp ▸ (List.eraseIdx_subset (List.of_mem_zip hdq).2)
    exact ⟨hmono p _ hmem howns, hact⟩
  have hnamed : ∀ d ∈ t.sys.jobs.eraseIdx k, d.phase = .check →
      (Sys.header cfg d).cltNonce ≠ 0 := fun d hd => h.named d (List.eraseIdx_subset hd)
  rcases hjobs with heq | ⟨ph, heq, hg, hcheck⟩
  · refine ⟨?_, hstored, hfreed, by rw [heq]; exact hnamed⟩
    dsimp only
    rw [if_neg (by rw [heq]; omega), heq]
    exact hrest
  · refine ⟨?_, hstored, hfreed, ?_⟩
    · dsimp only
      rw [if_pos (by rw [heq, List.length_cons]; exact hlen), heq]
      exact .cons hg hrest
    · dsimp only
      rw [heq]
      exact List.forall_mem_cons.2 ⟨hcheck, hnamed⟩

/-- A request that is found done acknowledges nothing as late as itself. -/
theorem Buffers.lt_of_found {s : Sys ι Ω} {j : Job ι} (h : Buffers.found cfg s j = .done) :
    (Sys.header cfg j).xidRep.toUInt32.toNat < (Sys.header cfg j).xid.toUInt32.toNat := by
  have hc := classified_checkduplicate (s.replyWindow (Sys.header cfg j).cltNonce)
    (Sys.header cfg j).xid.toUInt32.toNat (Sys.header cfg j).xidRep.toUInt32.toNat
  rw [Buffers.found] at h
  generalize checkduplicateAndUpdate _ _ _ = r at hc h
  cases hc with
  | done e he hx hp hlt => exact hlt
  | _ => cases h

/-- A buffer that is freed was made for a request that is acknowledged. -/
theorem Intact.acks_of_frees (h : Intact cfg own t) {j : Job ι} {p : ℕ}
    (hp : p ∈ t.bufs.frees cfg t.sys j) :
    (own p).1 = (Sys.header cfg j).cltNonce ∧
      (own p).2 ≤ (Sys.header cfg j).xidRep.toUInt32.toNat := by
  obtain ⟨e, he, hbuf⟩ := List.mem_filterMap.1 hp
  obtain ⟨hown, -⟩ := h.stored _ _ _ hbuf
  rw [hown]
  exact ⟨rfl, of_decide_eq_true (List.mem_filter.1 he).2⟩

/-- A request is classified that frees no buffer in use. -/
theorem Intact.check (h : Intact cfg own t) {k : ℕ} {j : Job ι} {rest : List (Job ι)}
    (hk : t.sys.jobs[k]? = some j) (hrest : rest = t.sys.jobs.eraseIdx k)
    (hkeeps : ∀ p ∈ t.bufs.frees cfg t.sys j, some p ∉ t.bufs.b1) (hphase : j.phase = .check) :
    Intact cfg own ⟨t.sys.check cfg j rest,
      t.bufs.dispatch cfg t.sys (t.sys.check cfg j rest) k j⟩ := by
  subst hrest
  -- what is stored after it was stored before, and is not pruned
  have hstored : ∀ n x p, (t.bufs.check cfg t.sys j).buf n x = some p →
      (t.bufs.check cfg t.sys j).Owns own (n, x) p := by
    intro n x p hp
    simp only [Buffers.check] at hp
    split at hp
    · cases hp
    · rename_i hno
      obtain ⟨hown, hmade, hkept⟩ := h.stored n x p hp
      refine ⟨hown, hmade, fun hmem => ?_⟩
      rcases List.mem_append.1 hmem with hfree | hmem
      · obtain ⟨hn, hx⟩ := h.acks_of_frees hfree
        rw [hown] at hn hx
        exact hno ⟨hn, .inl hx⟩
      · exact hkept hmem
  have hmono : ∀ p key, some p ∈ t.bufs.b1 → t.bufs.Owns own key p →
      (t.bufs.check cfg t.sys j).Owns own key p := by
    rintro p key hp ⟨hown, hmade, hkept⟩
    refine ⟨hown, hmade, fun hmem => ?_⟩
    rcases List.mem_append.1 hmem with hfree | hmem
    · exact hkeeps p hfree hp
    · exact hkept hmem
  have hfreed : ∀ p ∈ (t.bufs.check cfg t.sys j).freed, p < (t.bufs.check cfg t.sys j).count := by
    intro p hp
    rcases List.mem_append.1 hp with hfree | hp
    · obtain ⟨e, -, hbuf⟩ := List.mem_filterMap.1 hfree
      exact (h.stored _ _ _ hbuf).2.1
    · exact h.freed p hp
  -- a duplicate of a request that is done gets the buffer of the entry
  have hgoesOn : ∀ p, t.bufs.goesOn cfg t.sys j t.bufs.b1[k]?.join = some p →
      (t.bufs.check cfg t.sys j).Owns own (keyOf cfg j) p ∧
        Buffers.found cfg t.sys j = .done := by
    intro p hp
    simp only [Buffers.goesOn, hphase] at hp
    split at hp
    · rename_i hdone
      refine ⟨hstored _ _ p ?_, hdone⟩
      have hlt := Buffers.lt_of_found hdone
      simp only [Buffers.check, hdone]
      rw [if_neg ?_]
      · exact hp
      · rintro ⟨-, hle | ⟨-, hnew⟩⟩
        · omega
        · cases hnew
    · cases hp
  rw [Buffers.dispatch, hphase]
  refine h.job hk ?_ hmono hstored hfreed
  have hfound : Buffers.found cfg t.sys j = (checkduplicateAndUpdate
      (t.sys.replyWindow (Sys.header cfg j).cltNonce) (Sys.header cfg j).xid.toUInt32.toNat
      (Sys.header cfg j).xidRep.toUInt32.toNat).2.1 := rfl
  simp only [Sys.check]
  rw [← Sys.header, ← hfound]
  cases hst : Buffers.found cfg t.sys j with
  | inprogress => exact .inl rfl
  | new =>
    refine .inr ⟨_, rfl, fun p hp => ?_, fun hcheck => by cases hcheck⟩
    have := (hgoesOn p hp).2
    rw [hst] at this
    cases this
  | done => exact .inr ⟨_, rfl, fun p hp => ⟨(hgoesOn p hp).1, rfl⟩, fun hcheck => by cases hcheck⟩
  | forgotten =>
    refine .inr ⟨_, rfl, fun p hp => ?_, fun hcheck => by cases hcheck⟩
    have := (hgoesOn p hp).2
    rw [hst] at this
    cases this

/-- A handler puts its reply into a new buffer. -/
theorem Intact.handler (h : Intact cfg own t) {k : ℕ} {j : Job ι} {ph : Phase ι}
    (hk : t.sys.jobs[k]? = some j) (hphase : j.phase = .handler) (hact : ph.active = true)
    (hcheck : ph ≠ .check) (hjobs : s'.jobs = j.goto ph :: t.sys.jobs.eraseIdx k) :
    ∃ own', Intact cfg own' ⟨s', t.bufs.dispatch cfg t.sys s' k j⟩ := by
  refine ⟨Function.update own t.bufs.count (keyOf cfg j), ?_⟩
  have hmono : ∀ p key, t.bufs.Owns own key p →
      Buffers.Owns { t.bufs with count := t.bufs.count + 1 }
        (Function.update own t.bufs.count (keyOf cfg j)) key p := by
    rintro p key ⟨hown, hmade, hkept⟩
    refine ⟨?_, Nat.lt_succ_of_lt hmade, hkept⟩
    rw [Function.update_of_ne (Nat.ne_of_lt hmade)]
    exact hown
  rw [Buffers.dispatch, hphase]
  refine h.job hk (.inr ⟨ph, hjobs, fun p hp => ⟨?_, hact⟩, fun heq => absurd heq hcheck⟩)
    (fun p key _ => hmono p key) (fun n x p hp => hmono p _ (h.stored n x p hp))
    fun p hp => Nat.lt_succ_of_lt (h.freed p hp)
  simp only [Buffers.goesOn, hphase, Option.some.injEq] at hp
  subst hp
  exact ⟨Function.update_self _ _ _, Nat.lt_succ_self _,
    fun hmem => absurd (h.freed _ hmem) (lt_irrefl _)⟩

/-- A reply is stored. -/
theorem Intact.addReply (h : Intact cfg own t) {k : ℕ} {j : Job ι} {b : List UInt8}
    (hk : t.sys.jobs[k]? = some j) (hphase : j.phase = .addReply b)
    (hjobs : s'.jobs = j.goto (.choose b) :: t.sys.jobs.eraseIdx k) :
    Intact cfg own ⟨s', t.bufs.dispatch cfg t.sys s' k j⟩ := by
  rw [Buffers.dispatch, hphase]
  refine h.job hk (.inr ⟨_, hjobs, fun p hp => ?_, fun heq => by cases heq⟩)
    (fun _ _ _ howns => howns) (fun n x p hp => ?_) h.freed
  · simp only [Buffers.goesOn, hphase] at hp
    exact ⟨(h.owns hk hp).1, rfl⟩
  · simp only [Buffers.storeReply] at hp
    split at hp
    · rename_i hx
      obtain ⟨rfl, rfl, -⟩ := hx
      exact (h.owns hk hp).1
    · exact h.stored n x p hp

/-- A step of a job that leaves the entries alone. -/
theorem Intact.goto (h : Intact cfg own t) {k : ℕ} {j : Job ι} (hk : t.sys.jobs[k]? = some j)
    (hjobs : s'.jobs = t.sys.jobs.eraseIdx k ∨ ∃ ph, s'.jobs = j.goto ph :: t.sys.jobs.eraseIdx k ∧
      (j.phase ≠ .queued → ph.active = true) ∧
      (ph = .check → (Sys.header cfg j).cltNonce ≠ 0))
    (hphase : j.phase = .queued ∨ (∃ b, j.phase = .choose b) ∨ ∃ c st b, j.phase = .send c st b) :
    Intact cfg own ⟨s', t.bufs.dispatch cfg t.sys s' k j⟩ := by
  have hsame : t.bufs.dispatch cfg t.sys s' k j = { t.bufs with
      b1 := if s'.jobs.length = t.sys.jobs.length then
        t.bufs.goesOn cfg t.sys j t.bufs.b1[k]?.join :: t.bufs.b1.eraseIdx k
        else t.bufs.b1.eraseIdx k } := by
    rw [Buffers.dispatch]
    rcases hphase with hph | ⟨b, hph⟩ | ⟨c, st, b, hph⟩ <;> rw [hph]
  rw [hsame]
  refine h.job hk (hjobs.imp id ?_) (fun _ _ _ howns => howns) h.stored h.freed
  rintro ⟨ph, heq, hact, hcheck⟩
  refine ⟨ph, heq, fun p hp => ?_, hcheck⟩
  rcases hphase with hph | ⟨b, hph⟩ | ⟨c, st, b, hph⟩
  · simp only [Buffers.goesOn, hph] at hp
    cases hp
  · simp only [Buffers.goesOn, hph] at hp
    exact ⟨(h.owns hk hp).1, hact (by rw [hph]; simp)⟩
  · simp only [Buffers.goesOn, hph] at hp
    exact ⟨(h.owns hk hp).1, hact (by rw [hph]; simp)⟩

/-- Nothing that the buffers are about is changed. -/
theorem Intact.congr (h : Intact cfg own t) (hjobs : s'.jobs = t.sys.jobs) :
    Intact cfg own ⟨s', t.bufs⟩ :=
  ⟨hjobs ▸ h.held, h.stored, h.freed, hjobs ▸ h.named⟩

/-- **One step of a job.** -/
theorem Intact.dispatch [DecidableEq ι] (h : Intact cfg own t) {k : ℕ} {w : Ω}
    (hkeeps : t.KeepsUsed cfg (.act (.dispatch k w))) (hs : t.sys.dispatch cfg k w = some s') :
    ∃ own', Intact cfg own' ⟨s', t.bufs.step cfg t.sys s' (.dispatch k w)⟩ := by
  unfold Sys.dispatch at hs
  cases hk : t.sys.jobs[k]? with
  | none =>
    rw [hk] at hs
    cases hs
  | some j =>
    rw [hk] at hs
    dsimp only at hs
    rw [Buffers.step, hk]
    dsimp only
    cases hphase : j.phase with
    | queued =>
      rw [hphase] at hs
      obtain rfl := Option.some.inj hs
      refine ⟨own, h.goto hk ?_ (.inl hphase)⟩
      have hq : j.phase ≠ .queued → ∀ ph : Phase ι, ph.active = true := fun hne =>
        absurd hphase hne
      simp only [Sys.start]
      split
      · exact .inl rfl
      split
      · exact .inr ⟨_, rfl, fun hne => hq hne _, fun heq => by cases heq⟩
      split
      · exact .inl rfl
      split
      · rename_i hn
        exact .inr ⟨_, rfl, fun hne => hq hne _, fun _ => hn⟩
      · exact .inr ⟨_, rfl, fun hne => hq hne _, fun heq => by cases heq⟩
    | check =>
      rw [hphase] at hs
      obtain rfl := Option.some.inj hs
      exact ⟨own, h.check hk rfl (hkeeps j hk hphase) hphase⟩
    | handler =>
      rw [hphase] at hs
      simp only [Sys.runHandler] at hs
      split at hs
      · cases hs
      · split at hs
        · cases hs
        · obtain rfl := Option.some.inj hs
          refine h.handler hk hphase ?_ ?_ rfl
          · split <;> rfl
          · split <;> simp
    | addReply b =>
      rw [hphase] at hs
      obtain rfl := Option.some.inj hs
      exact ⟨own, h.addReply hk hphase rfl⟩
    | choose b =>
      rw [hphase] at hs
      refine ⟨own, h.goto hk ?_ (.inr (.inl ⟨b, hphase⟩))⟩
      simp only [Sys.choose] at hs
      split at hs
      · obtain ⟨c, -, rfl⟩ := Option.map_eq_some_iff.1 hs
        exact .inr ⟨_, rfl, fun _ => rfl, fun heq => by cases heq⟩
      · obtain rfl := Option.some.inj hs
        exact .inr ⟨_, rfl, fun _ => rfl, fun heq => by cases heq⟩
    | send c st b =>
      rw [hphase] at hs
      obtain rfl := Option.some.inj hs
      exact ⟨own, h.goto hk (.inl rfl) (.inr (.inr ⟨c, st, b, hphase⟩))⟩

/-- A request comes in. -/
theorem Intact.recv (h : Intact cfg own t) {k : ℕ} (hs : t.sys.recv k = some s') :
    Intact cfg own ⟨s', { t.bufs with b1 := none :: t.bufs.b1 }⟩ := by
  unfold Sys.recv at hs
  split at hs
  · cases hs
  · split at hs
    · cases hs
    · obtain rfl := Option.some.inj hs
      exact ⟨.cons (fun _ hp => by cases hp) h.held, h.stored, h.freed,
        List.forall_mem_cons.2 ⟨fun heq => (by cases heq), h.named⟩⟩

variable [DecidableEq ι]

/-- The jobs change when a request comes in, and when one is dispatched. -/
theorem jobs_move {s s' : Sys ι Ω} {a : Action ι Ω} (hm : Sys.Move cfg s a s')
    (hrecv : ∀ k, a ≠ .recv k) (hdispatch : ∀ k w, a ≠ .dispatch k w) : s'.jobs = s.jobs := by
  cases hm with
  | recv k => exact absurd rfl (hrecv k)
  | idle => rfl
  | call => rfl
  | transmit => rfl
  | wake => rfl
  | finish => rfl
  | bound => rfl
  | gotPdu => rfl
  | net => rfl
  | _ k w => exact absurd rfl (hdispatch k w)

/-- **One step.** -/
theorem Intact.act (h : Intact cfg own t) {a : Action ι Ω} (hkeeps : t.KeepsUsed cfg (.act a))
    (hs : t.sys.step cfg a = some s') :
    ∃ own', Intact cfg own' ⟨s', t.bufs.step cfg t.sys s' a⟩ := by
  cases a with
  | recv k => exact ⟨own, h.recv hs⟩
  | dispatch k w => exact h.dispatch hkeeps hs
  | _ =>
    exact ⟨own, h.congr (jobs_move (Sys.move_of_step hs) (by intro _ heq; cases heq)
      (by intro _ _ heq; cases heq))⟩

/-- No freed buffer is there to be sent. -/
theorem Intact.not_reused (h : Intact cfg own t) (k : ℕ) (b : List UInt8) :
    t.step cfg (.reused k b) = none := by
  rw [BufSys.step]
  cases hk : t.sys.jobs[k]? with
  | none => rfl
  | some j =>
    dsimp only
    split
    · refine if_neg ?_
      rintro ⟨-, p, hfreed, hp⟩
      exact (h.owns hk (by rw [hp]; rfl)).1.2.2 hfreed
    · rfl

/-- **Runs**: where no buffer in use is freed, a buffer is its contents. -/
theorem Intact.exec_sys (h : Intact cfg own t) {acts : List (BufAct ι Ω)} {t' : BufSys ι Ω}
    (hkeeps : Steps (BufSys.step cfg) (BufSys.KeepsUsed cfg) t acts)
    (hexec : exec (BufSys.step cfg) t acts = some t') :
    exec (Sys.step cfg) t.sys (sysActs acts) = some t'.sys := by
  induction acts generalizing t own with
  | nil =>
    obtain rfl := Option.some.inj hexec
    rfl
  | cons a acts ih =>
    obtain ⟨t₁, hs, hexec⟩ := exec_cons_eq_some.1 hexec
    cases a with
    | reused k b =>
      rw [h.not_reused] at hs
      cases hs
    | act a =>
      obtain ⟨s', hs', rfl⟩ := Option.map_eq_some_iff.1 hs
      obtain ⟨own', h'⟩ := h.act hkeeps.1 hs'
      exact exec_cons_eq_some.2 ⟨s', hs', ih h' (hkeeps.2 _ hs) hexec⟩

omit [DecidableEq ι] in
/-- Where no request is acknowledged while it is dispatched, no buffer in
use is freed. -/
theorem Intact.keepsUsed (h : Intact cfg own t) {a : Action ι Ω} (hno : NoPrune cfg t.sys a) :
    t.KeepsUsed cfg (.act a) := by
  intro j hj hphase p hp hheld
  obtain ⟨k, hk, hget⟩ := List.mem_iff_getElem.1 hheld
  have hlen := h.held.length_eq
  have hjob : t.sys.jobs[k]? = some t.sys.jobs[k] := List.getElem?_eq_getElem (by omega)
  obtain ⟨⟨hown, -⟩, hact⟩ := h.owns hjob (p := p) (by rw [List.getElem?_eq_getElem hk, hget]; rfl)
  obtain ⟨hn, hx⟩ := h.acks_of_frees hp
  rw [hown] at hn hx
  have hjmem : j ∈ t.sys.jobs := by
    cases a with
    | dispatch k w => exact List.mem_of_getElem? hj
    | _ => cases hj
  exact hno j hj hphase _ (List.getElem_mem (by omega)) hact _ _ ⟨rfl, rfl⟩
    (hn ▸ h.named j hjmem hphase) ⟨hn.symm, hx⟩

end

/-- Along a run of the system in which a buffer is its contents, where the
entries outlive the dispatches, no buffer in use is freed either. -/
theorem keepsUsed_of_noPrune [DecidableEq ι] {cfg : Config ι Ω} {acts : List (Action ι Ω)}
    (hno : Steps (Sys.step cfg) (NoPrune cfg) .init acts) :
    Steps (BufSys.step cfg) (BufSys.KeepsUsed cfg) .init (acts.map .act) := by
  suffices hs : ∀ (t : BufSys ι Ω) own, Intact cfg own t →
      Steps (Sys.step cfg) (NoPrune cfg) t.sys acts →
      Steps (BufSys.step cfg) (BufSys.KeepsUsed cfg) t (acts.map .act) from
    hs .init (fun _ => (0, 0)) (intact_init _) hno
  clear hno
  induction acts with
  | nil => exact fun _ _ _ _ => trivial
  | cons a acts ih =>
    intro t own h hno
    have hkeeps := h.keepsUsed hno.1
    refine ⟨hkeeps, fun t' ht' => ?_⟩
    obtain ⟨s', hs, rfl⟩ := Option.map_eq_some_iff.1 ht'
    obtain ⟨own', h'⟩ := h.act hkeeps hs
    exact ih _ own' h' (hno.2 s' hs)

/-- **Runs from the start.** -/
theorem exec_sys [DecidableEq ι] {cfg : Config ι Ω} {acts : List (BufAct ι Ω)} {t : BufSys ι Ω}
    (hkeeps : Steps (BufSys.step cfg) (BufSys.KeepsUsed cfg) .init acts)
    (hexec : exec (BufSys.step cfg) .init acts = some t) :
    exec (Sys.step cfg) .init (sysActs acts) = some t.sys :=
  (intact_init fun _ => (0, 0)).exec_sys hkeeps hexec

/-! ## What holds of the clients -/

/-- What a run of a retransmitting client should keep of the replies that
are still needed: headers acknowledge only calls that are settled, and once
a pending call has been found new, its entry is in the reply window and a
further copy is found in progress or done. -/
structure NeededKept [DecidableEq ι] (cfg : Config ι Ω) (i : ι) (t : BufSys ι Ω) : Prop where
  header : ∀ l₁ l₂ q, t.sys.log = l₁ ++ .called i q :: l₂ → HeaderOk cfg i q l₂
  entry : ∀ q, Pending t.sys i q → .classified (q.hdr (cfg.cltNonce i)) .new ∈ t.sys.log →
    ∃ e ∈ t.sys.replyWindow (cfg.cltNonce i), e.xid = q.xid
  copy : ∀ q, Pending t.sys i q → .classified (q.hdr (cfg.cltNonce i)) .new ∈ t.sys.log →
    ∀ a t' st, t.step cfg a = some t' →
      t'.sys.log = .classified (q.hdr (cfg.cltNonce i)) st :: t.sys.log →
      st = .inprogress ∨ st = .done

section

variable [DecidableEq ι] {cfg : Config ι Ω} {i : ι} {acts : List (BufAct ι Ω)} {t : BufSys ι Ω}

/-- The send of a freed buffer leaves the clients alone, and records no
more than that it was sent. -/
theorem BufSys.frame_reused {k : ℕ} {b : List UInt8} {t' : BufSys ι Ω}
    (hs : t.step cfg (.reused k b) = some t') :
    t'.sys.clients = t.sys.clients ∧
      (t'.sys.log = t.sys.log ∨ ∃ c h, t'.sys.log = .sent c h :: t.sys.log) := by
  rw [BufSys.step] at hs
  split at hs
  · cases hs
  · split at hs
    · split at hs
      · obtain rfl := Option.some.inj hs
        refine ⟨rfl, ?_⟩
        rcases Sys.log_send cfg t.sys _ (t.sys.jobs.eraseIdx k) _ b with heq | heq
        · exact .inl heq
        · exact .inr ⟨_, _, heq⟩
      · cases hs
    · cases hs

/-- **A reply that is still needed is kept** in every run in which no
buffer is freed that a dispatch has yet to send. -/
theorem neededReply_of_keepsUsed (hi : Regular cfg i (sysActs acts))
    (hkeeps : Steps (BufSys.step cfg) (BufSys.KeepsUsed cfg) .init acts)
    (hexec : exec (BufSys.step cfg) .init acts = some t) : NeededKept cfg i t := by
  obtain ⟨hheader, hentry⟩ := neededReply_kept hi (exec_sys hkeeps hexec)
  refine ⟨hheader, fun q hp hnew => (hentry q hp hnew).1, fun q hp hnew a t' st hs hlog => ?_⟩
  cases a with
  | act a =>
    obtain ⟨s', hs', rfl⟩ := Option.map_eq_some_iff.1 hs
    exact (hentry q hp hnew).2 a s' st hs' hlog
  | reused k b =>
    rcases (BufSys.frame_reused hs).2 with heq | ⟨c, h, heq⟩
    · rw [heq] at hlog
      exact absurd hlog.symm (List.cons_ne_self _ _)
    · rw [heq] at hlog
      cases (List.cons_eq_cons.1 hlog).1

/-- **Results are genuine** in every such run. -/
theorem genuine_of_keepsUsed (hi : Regular cfg i (sysActs acts))
    (hkeeps : Steps (BufSys.step cfg) (BufSys.KeepsUsed cfg) .init acts)
    (hexec : exec (BufSys.step cfg) .init acts = some t) : Genuine cfg i t.sys.log :=
  results_genuine hi (exec_sys hkeeps hexec)

end

/-! ## Runs -/

section

/-- The client `i` made a call, and it is as `p` says. -/
def Event.isCall [DecidableEq ι] (i : ι) (p : Request → Bool) : Event ι Ω → Bool
  | .called j q => decide (j = i) && p q
  | _ => false

/-- A call of the client `i` returned, and call and result are as `p` says. -/
def Event.isReturn [DecidableEq ι] (i : ι) (p : Request → Int32 → Bool) :
    Event ι Ω → Bool
  | .returned j q b _ => decide (j = i) && p q b
  | _ => false

/-- A handler returned for a request, and request, result and reply are as
`p` says. -/
def Event.isExecution (p : List UInt8 → Int32 → List UInt8 → Bool) : Event ι Ω → Bool
  | .executed pdu _ ret b => p pdu ret b
  | _ => false

variable {log : List (Event ι Ω)} {i : ι}

theorem exists_called [DecidableEq ι] {p : Request → Bool} (h : log.any (Event.isCall i p) = true) :
    ∃ q, .called i q ∈ log ∧ p q = true := by
  obtain ⟨e, he, hp⟩ := List.any_eq_true.1 h
  cases e with
  | called j q =>
    obtain ⟨hj, hq⟩ := Bool.and_eq_true_iff.1 hp
    obtain rfl := of_decide_eq_true hj
    exact ⟨q, he, hq⟩
  | _ => cases hp

theorem exists_returned [DecidableEq ι] {p : Request → Int32 → Bool}
    (h : log.any (Event.isReturn i p) = true) :
    ∃ q b r, .returned i q b r ∈ log ∧ p q b = true := by
  obtain ⟨e, he, hp⟩ := List.any_eq_true.1 h
  cases e with
  | returned j q b r =>
    obtain ⟨hj, hq⟩ := Bool.and_eq_true_iff.1 hp
    obtain rfl := of_decide_eq_true hj
    exact ⟨q, b, r, he, hq⟩
  | _ => cases hp

theorem exists_executed {p : List UInt8 → Int32 → List UInt8 → Bool}
    (h : log.any (Event.isExecution p) = true) :
    ∃ pdu w ret b, .executed pdu w ret b ∈ log ∧ p pdu ret b = true := by
  obtain ⟨e, he, hp⟩ := List.any_eq_true.1 h
  cases e with
  | executed pdu w ret b => exact ⟨pdu, w, ret, b, he, hp⟩
  | _ => cases hp

end

/-- The call 2 is transmitted twice, and one copy has been found new. -/
def retryRun : List (BufAct Unit Unit) :=
  (bindFirst ++ ask 2 2 ++ retry 0 2 ++ serve 2).map .act

theorem neededReply_of_keepsUsed_retryRun : ∃ t q,
    exec (BufSys.step oneClient) .init retryRun = some t ∧ Pending t.sys () q ∧
      .classified (q.hdr 7) .new ∈ t.sys.log ∧ ∃ e ∈ t.sys.replyWindow 7, e.xid = q.xid := by
  have h : (exec (BufSys.step oneClient) .init retryRun).any (fun t =>
      (t.sys.clients ()).calls.any fun ca => !ca.done && t.sys.log.any fun e =>
        decide (e.arrival = some (ca.q.hdr 7)) && e.isNew 7 2) = true := by
    decide +kernel
  obtain ⟨t, ht, hany⟩ := (Option.any_eq_true _ _).1 h
  obtain ⟨ca, hca, hmem⟩ := List.any_eq_true.1 hany
  rw [Bool.and_eq_true, Bool.not_eq_true'] at hmem
  obtain ⟨hdone, hlog⟩ := hmem
  obtain ⟨e, he, hnew⟩ := List.any_eq_true.1 hlog
  have hp : Pending t.sys () ca.q := ⟨ca, hca, rfl, hdone⟩
  have hc : .classified (ca.q.hdr 7) .new ∈ t.sys.log := by
    cases e with
    | classified h st =>
      simp only [Event.arrival, Event.isNew, Bool.and_eq_true, decide_eq_true_eq,
        Option.some.injEq] at hnew
      obtain ⟨rfl, rfl, -⟩ := hnew
      exact he
    | _ => simp [Event.arrival] at hnew
  exact ⟨t, ca.q, ht, hp, hc, (neededReply_of_keepsUsed (regular_oneClient (by decide) ())
    (by decide +kernel) ht).entry ca.q hp hc⟩

/-- The call 2 returns, and its buffer is freed when the call 3 is
classified. -/
def echoThenRun : List (BufAct Unit Unit) := (echoRun ++ ask 2 3 ++ serve 2).map .act

/-- It returned 0, from a run of the procedure 2. -/
theorem genuine_of_keepsUsed_echoThenRun : ∃ t q r,
    exec (BufSys.step oneClient) .init echoThenRun = some t ∧ t.bufs.freed ≠ [] ∧
      .returned () q 0 r ∈ t.sys.log ∧ q.proc = 2 ∧
      ∃ f w rep, MadeBy oneClient t.sys.log () q 0 r f w rep := by
  have h : (exec (BufSys.step oneClient) .init echoThenRun).any (fun t =>
      decide (t.bufs.freed ≠ []) &&
        t.sys.log.any (Event.isReturn () fun q b => decide (q.proc = 2 ∧ b = 0))) = true := by
    decide +kernel
  obtain ⟨t, ht, hany⟩ := (Option.any_eq_true _ _).1 h
  obtain ⟨hfreed, hret⟩ := Bool.and_eq_true_iff.1 hany
  obtain ⟨q, b, r, hmem, hq⟩ := exists_returned hret
  obtain ⟨hproc, rfl⟩ := of_decide_eq_true hq
  exact ⟨t, q, r, ht, of_decide_eq_true hfreed, hmem, hproc,
    (genuine_of_keepsUsed (regular_oneClient (by decide) ()) (by decide +kernel) ht).returned
      q 0 r hmem (by decide)⟩

/-! ## A buffer that is used again -/

/-- Two clients of the server of `oneClient`. -/
def bothClients : Config Bool Unit where
  cltNonce := fun i => if i then 8 else 7
  retrans := fun _ => true
  nonce := 9
  handlers := oneClient.handlers
  mem := fun _ => 0

/-- The client `i` makes the call `x`, and the server reads the request. -/
def asks (i : Bool) (proc : UInt32) (arg : Int32) (x : ℕ) : List (BufAct Bool Unit) :=
  [.act (.call i (proc = bindProc) proc [.basic .int] (arg, ()) (.basic .int)),
    .act (.transmit i x true), .act (.recv 0)]

/-- The server takes `k` steps with the job that came last. -/
def serves (k : ℕ) : List (BufAct Bool Unit) := List.replicate k (.act (.dispatch 0 ()))

/-- The client `i` binds. -/
def binds (i : Bool) : List (BufAct Bool Unit) :=
  asks i bindProc 0 1 ++ serves 6 ++ [.act (.gotPdu 0), .act (.finish i 1), .act (.bound i 0)]

/-- The reply to the call `x` that returns 0 and `r`. -/
def replyTo (x r : Int32) : List UInt8 :=
  (((Marshall.new bothClients.mem).put (.basic .int) r).packReplyHeader ⟨x, 0⟩).str

/-- The reply to the call 2 of the client with nonce 7 is stored and about
to be sent when the call times out and the call 3 acknowledges it. The call
`x` of the other client gets the memory for its reply, and the client with
nonce 7 reads it. -/
def reusedRun (x : ℕ) : List (BufAct Bool Unit) :=
  binds false ++ asks false 2 5 2 ++ serves 5 ++ [.act (.finish false 2)] ++
    asks false 2 5 3 ++ serves 2 ++ binds true ++
    ((List.range' 2 (x - 2)).flatMap fun y => asks true 2 9 y ++ [.act (.finish true y)]) ++
    asks true 2 9 x ++ serves 3 ++ [.reused x (replyTo (.ofNat x) 9), .act (.gotPdu 0)]

theorem regular_bothClients {acts : List (BufAct Bool Unit)} (h : acts.length < 2 ^ 32 - 1)
    (i : Bool) : Regular bothClients i (sysActs acts) where
  ne_zero := by cases i <;> decide
  eq_of_eq := by cases i <;> decide
  few := Nat.lt_of_le_of_lt (List.countP_le_length.trans (List.length_filterMap_le _ _)) h

/-- The call 3 of the client with nonce 7 returns what the call 3 of the
other client was to return. -/
theorem not_genuine_reusedRun :
    (∀ i, Regular bothClients i (sysActs (reusedRun 3 ++ [.act (.finish false 3)]))) ∧
    ∃ t, exec (BufSys.step bothClients) .init (reusedRun 3 ++ [.act (.finish false 3)]) = some t ∧
      (∃ pdu, .executed pdu () 0 (replyTo 3 9) ∈ t.sys.log) ∧
      ¬ Genuine bothClients false t.sys.log := by
  have h : (exec (BufSys.step bothClients) .init
      (reusedRun 3 ++ [.act (.finish false 3)])).any (fun t =>
        t.sys.log.any (Event.isExecution fun _ ret b => decide (ret = 0 ∧ b = replyTo 3 9)) &&
        t.sys.log.any (Event.isReturn false fun q b => decide (0 ≤ b) &&
          !t.sys.log.any (Event.isExecution fun pdu _ _ =>
            decide (pdu = q.wire bothClients false)))) = true := by
    decide +kernel
  obtain ⟨t, ht, hany⟩ := (Option.any_eq_true _ _).1 h
  obtain ⟨hother, hret⟩ := Bool.and_eq_true_iff.1 hany
  refine ⟨regular_bothClients (by decide), t, ht, ?_, fun hgen => ?_⟩
  · obtain ⟨pdu, _, ret, b, hmem, hp⟩ := exists_executed hother
    obtain ⟨rfl, rfl⟩ := of_decide_eq_true hp
    exact ⟨pdu, hmem⟩
  · obtain ⟨q, b, r, hmem, hq⟩ := exists_returned hret
    obtain ⟨hpos, hnone⟩ := Bool.and_eq_true_iff.1 hq
    obtain ⟨f, w, rep, hmade⟩ := hgen.returned _ _ _ hmem (of_decide_eq_true hpos)
    rw [Bool.not_eq_true', List.any_eq_false] at hnone
    exact hnone _ hmade.executed (decide_eq_true rfl)

/-- The client with nonce 7 acknowledges its call 4 in the header of that
call. -/
theorem not_neededKept_reusedRun :
    (∀ i, Regular bothClients i (sysActs (reusedRun 4 ++ [.act (.finish false 3)] ++
      asks false 2 5 4))) ∧
    ∃ t, exec (BufSys.step bothClients) .init (reusedRun 4 ++ [.act (.finish false 3)] ++
        asks false 2 5 4) = some t ∧ ¬ NeededKept bothClients false t := by
  have h : (exec (BufSys.step bothClients) .init (reusedRun 4 ++ [.act (.finish false 3)] ++
      asks false 2 5 4)).any (fun t => t.sys.log.any (Event.isCall false fun q =>
        decide ((q.hdr 7).xid.toUInt32.toNat ≤ (q.hdr 7).xidRep.toUInt32.toNat))) = true := by
    decide +kernel
  obtain ⟨t, ht, hany⟩ := (Option.any_eq_true _ _).1 h
  refine ⟨regular_bothClients (by decide), t, ht, fun hkept => ?_⟩
  obtain ⟨q, hmem, hq⟩ := exists_called hany
  obtain ⟨l₁, l₂, hsplit⟩ := List.append_of_mem hmem
  exact absurd (of_decide_eq_true hq) (Nat.not_le.2 (hkept.header l₁ l₂ _ hsplit).lt)

end Rpc

end Yfs
