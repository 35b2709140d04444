import Mathlib.Data.List.Nodup
import Yfs.Rpc.Wire

/-!
# The books of a client

What a client's window, its calls in progress and the record say about
each other: `Ledger`. Every xid was given to one call; the window tracks
the xids that are settled, that is, whose call has received a reply or
returned; and a header acknowledges only settled xids. One lemma for
each step of the client says that it keeps the books.
-/

namespace Yfs

open Common

namespace Rpc

variable {ι Ω : Type}

/-- The call `y` of client `i` has received a reply or returned. -/
def Settled (log : List (Event ι Ω)) (i : ι) (y : ℕ) : Prop :=
  (∃ b, .replied i y b ∈ log) ∨ ∃ q b r, .returned i q b r ∈ log ∧ q.xid = y

/-- The books of client `i` in the state `c`. -/
structure Ledger (i : ι) (c : Rpcc ι) (log : List (Event ι Ω)) : Prop where
  xid_pos : 1 ≤ c.xid
  xid_lt : c.xid < 2 ^ 32
  called_lt : ∀ q, .called i q ∈ log → 1 ≤ q.xid ∧ q.xid < c.xid
  unique : ∀ q q', .called i q ∈ log → .called i q' ∈ log → q.xid = q'.xid → q = q'
  caller : ∀ ca ∈ c.calls, .called i ca.q ∈ log
  nodup : (c.calls.map (·.q.xid)).Nodup
  settled_called : ∀ y, Settled log i y → ∃ q, .called i q ∈ log ∧ q.xid = y
  tracks : Tracks (Settled log i) c.window
  acks : ∀ q, .called i q ∈ log →
    q.xidRep < q.xid ∧ ∀ y, 1 ≤ y → y ≤ q.xidRep → Settled log i y
  /-- A call in progress that is settled is one with a reply. -/
  progress : ∀ ca ∈ c.calls, Settled log i ca.q.xid ↔ ca.done = true
  /-- A call that is not in progress has returned. -/
  gone : ∀ q, .called i q ∈ log → (∃ ca ∈ c.calls, ca.q = q) ∨ Settled log i q.xid

theorem ledger_new (i : ι) : Ledger i Rpcc.new ([] : List (Event ι Ω)) where
  xid_pos := le_rfl
  xid_lt := Nat.one_lt_two_pow (by decide)
  called_lt := by simp
  unique := by simp
  caller := by simp [Rpcc.new]
  nodup := by simp [Rpcc.new]
  settled_called := by simp [Settled]
  tracks := tracks_new.congr (by simp [Settled])
  acks := by simp
  progress := by simp [Rpcc.new]
  gone := by simp

/-- The event is no call, reply or return of client `i`. -/
def Foreign (i : ι) : Event ι Ω → Prop
  | .called j _ => j ≠ i
  | .replied j _ _ => j ≠ i
  | .returned j _ _ _ => j ≠ i
  | _ => True

section

variable {i : ι} {c : Rpcc ι} {log : List (Event ι Ω)} {e : Event ι Ω}

theorem Foreign.called_iff (h : Foreign i e) (q : Request) :
    .called i q ∈ e :: log ↔ .called i q ∈ log := by
  rw [List.mem_cons, or_iff_right]
  rintro rfl
  exact h rfl

theorem Foreign.settled_iff (h : Foreign i e) (y : ℕ) :
    Settled (e :: log) i y ↔ Settled log i y := by
  have h1 : ∀ b, .replied i y b ∈ e :: log ↔ .replied i y b ∈ log := by
    intro b
    rw [List.mem_cons, or_iff_right]
    rintro rfl
    exact h rfl
  have h2 : ∀ q b r, .returned i q b r ∈ e :: log ↔ .returned i q b r ∈ log := by
    intro q b r
    rw [List.mem_cons, or_iff_right]
    rintro rfl
    exact h rfl
  simp only [Settled, h1, h2]

/-- What others do leaves the books as they are. -/
theorem Ledger.foreign (h : Ledger i c log) (he : Foreign i e) : Ledger i c (e :: log) where
  xid_pos := h.xid_pos
  xid_lt := h.xid_lt
  called_lt := by simpa only [he.called_iff] using h.called_lt
  unique := by simpa only [he.called_iff] using h.unique
  caller := by simpa only [he.called_iff] using h.caller
  nodup := h.nodup
  settled_called := by simpa only [he.called_iff, he.settled_iff] using h.settled_called
  tracks := h.tracks.congr fun y => (he.settled_iff y).symm
  acks := by simpa only [he.called_iff, he.settled_iff] using h.acks
  progress := by simpa only [he.settled_iff] using h.progress
  gone := by simpa only [he.called_iff, he.settled_iff] using h.gone

/-- The front of the window is below the next xid. -/
theorem Ledger.front_lt (h : Ledger i c log) : windowFront c.window < c.xid := by
  rcases Nat.eq_zero_or_pos (windowFront c.window) with h0 | hpos
  · have := h.xid_pos
    omega
  · obtain ⟨q, hq, hx⟩ := h.settled_called _ (h.tracks.below _ hpos le_rfl)
    have := (h.called_lt q hq).2
    omega

/-- Two calls in progress with one xid are one. -/
theorem Ledger.eq_of_xid (h : Ledger i c log) {ca d : Caller ι} (hca : ca ∈ c.calls)
    (hd : d ∈ c.calls) (hx : d.q.xid = ca.q.xid) : d = ca :=
  List.inj_on_of_nodup_map h.nodup hd hca hx

/-- A new call. -/
theorem Ledger.call (h : Ledger i c log) {ca : Caller ι} (hlt : c.xid < 2 ^ 32 - 1)
    (hxid : ca.q.xid = c.xid) (hrep : ca.q.xidRep = windowFront c.window)
    (hdone : ca.done = false) :
    Ledger i { c with xid := (c.xid + 1) % 2 ^ 32, calls := ca :: c.calls }
      (.called i ca.q :: log) := by
  have hx : (c.xid + 1) % 2 ^ 32 = c.xid + 1 := Nat.mod_eq_of_lt (by omega)
  have hpos := h.xid_pos
  have hset : ∀ y, Settled (.called i ca.q :: log) i y ↔ Settled log i y := by simp [Settled]
  have hcalled : ∀ q, .called i q ∈ Event.called i ca.q :: log ↔ q = ca.q ∨ .called i q ∈ log := by
    simp
  have hfresh : ∀ q, .called i q ∈ log → q.xid ≠ ca.q.xid := by
    intro q hq
    have := (h.called_lt q hq).2
    omega
  have hnew : ¬ Settled log i ca.q.xid := by
    intro hs
    obtain ⟨q, hq, hqx⟩ := h.settled_called _ hs
    exact hfresh q hq hqx
  simp only [hx]
  refine ⟨by simp, by simp only; omega, ?_, ?_, ?_, ?_, ?_, h.tracks.congr fun y => (hset y).symm,
    ?_, ?_, ?_⟩
  · intro q hq
    rcases (hcalled q).1 hq with rfl | hq
    · simp only
      omega
    · have := h.called_lt q hq
      simp only
      omega
  · intro q q' hq hq' heq
    rcases (hcalled q).1 hq with rfl | hq <;> rcases (hcalled q').1 hq' with rfl | hq'
    · rfl
    · exact absurd heq.symm (hfresh q' hq')
    · exact absurd heq (hfresh q hq)
    · exact h.unique q q' hq hq' heq
  · intro d hd
    rcases List.mem_cons.1 hd with rfl | hd
    · exact List.mem_cons_self
    · exact List.mem_cons_of_mem _ (h.caller d hd)
  · rw [List.map_cons, List.nodup_cons]
    refine ⟨fun hmem => ?_, h.nodup⟩
    obtain ⟨d, hd, hdx⟩ := List.mem_map.1 hmem
    exact hfresh d.q (h.caller d hd) hdx
  · intro y hy
    obtain ⟨q, hq, hqy⟩ := h.settled_called y ((hset y).1 hy)
    exact ⟨q, List.mem_cons_of_mem _ hq, hqy⟩
  · intro q hq
    simp only [hset]
    rcases (hcalled q).1 hq with rfl | hq
    · have := h.front_lt
      refine ⟨by omega, fun y hy hle => h.tracks.below y hy (by omega)⟩
    · exact h.acks q hq
  · intro d hd
    rw [hset]
    rcases List.mem_cons.1 hd with rfl | hd
    · simp [hnew, hdone]
    · exact h.progress d hd
  · intro q hq
    rw [hset]
    rcases (hcalled q).1 hq with rfl | hq
    · exact .inl ⟨ca, List.mem_cons_self, rfl⟩
    · rcases h.gone q hq with ⟨d, hd, hdq⟩ | hs
      · exact .inl ⟨d, List.mem_cons_of_mem _ hd, hdq⟩
      · exact .inr hs

/-- A step that leaves the window alone, and of the calls what the books
are about. -/
theorem Ledger.calls_congr (h : Ledger i c log) {c' : Rpcc ι} (hxid : c'.xid = c.xid)
    (hwindow : c'.window = c.window)
    (hcalls : c'.calls.map (fun ca => (ca.q, ca.done)) = c.calls.map (fun ca => (ca.q, ca.done))) :
    Ledger i c' log := by
  have hback : ∀ ca' ∈ c'.calls, ∃ ca ∈ c.calls, ca.q = ca'.q ∧ ca.done = ca'.done := by
    intro ca' hca'
    have hmem := List.mem_map_of_mem (f := fun ca : Caller ι => (ca.q, ca.done)) hca'
    rw [hcalls] at hmem
    obtain ⟨ca, hca, heq⟩ := List.mem_map.1 hmem
    exact ⟨ca, hca, congrArg Prod.fst heq, congrArg Prod.snd heq⟩
  have hforth : ∀ ca ∈ c.calls, ∃ ca' ∈ c'.calls, ca'.q = ca.q := by
    intro ca hca
    have hmem := List.mem_map_of_mem (f := fun ca : Caller ι => (ca.q, ca.done)) hca
    rw [← hcalls] at hmem
    obtain ⟨ca', hca', heq⟩ := List.mem_map.1 hmem
    exact ⟨ca', hca', congrArg Prod.fst heq⟩
  refine ⟨hxid ▸ h.xid_pos, hxid ▸ h.xid_lt, hxid ▸ h.called_lt, h.unique, ?_, ?_,
    h.settled_called, hwindow ▸ h.tracks, h.acks, ?_, ?_⟩
  · intro ca' hca'
    obtain ⟨ca, hca, hq, -⟩ := hback ca' hca'
    exact hq ▸ h.caller ca hca
  · have hx := congrArg (List.map fun p : Request × Bool => p.1.xid) hcalls
    rw [List.map_map, List.map_map] at hx
    have hx' : c'.calls.map (·.q.xid) = c.calls.map (·.q.xid) := hx
    rw [hx']
    exact h.nodup
  · intro ca' hca'
    obtain ⟨ca, hca, hq, hd⟩ := hback ca' hca'
    rw [← hq, ← hd]
    exact h.progress ca hca
  · intro q hq
    rcases h.gone q hq with ⟨ca, hca, rfl⟩ | hs
    · obtain ⟨ca', hca', hq'⟩ := hforth ca hca
      exact .inl ⟨ca', hca', hq'⟩
    · exact .inr hs

/-- The call `x` is settled, by a reply or by returning. -/
theorem Ledger.settle (h : Ledger i c log) {c' : Rpcc ι} {log' : List (Event ι Ω)} {x : ℕ}
    (hx : ∃ q, .called i q ∈ log ∧ q.xid = x)
    (hcalled : ∀ q, .called i q ∈ log' ↔ .called i q ∈ log)
    (hset : ∀ y, Settled log' i y ↔ Settled log i y ∨ y = x) (hxid : c'.xid = c.xid)
    (hwindow : c'.window = updateXidRep c.window x)
    (hback : ∀ ca' ∈ c'.calls, ∃ ca ∈ c.calls, ca.q = ca'.q ∧
      (ca'.done = true ↔ ca.done = true ∨ ca.q.xid = x))
    (hforth : ∀ ca ∈ c.calls, ca.q.xid ≠ x → ∃ ca' ∈ c'.calls, ca'.q = ca.q)
    (hnodup : (c'.calls.map (·.q.xid)).Nodup) : Ledger i c' log' := by
  obtain ⟨q₀, hq₀, rfl⟩ := hx
  have hlt := h.xid_lt
  have hbound : ∀ y, Settled log i y ∨ y = q₀.xid → y < 2 ^ 32 - 1 := by
    intro y hy
    have hy' : ∃ q, .called i q ∈ log ∧ q.xid = y :=
      hy.elim (h.settled_called y) fun heq => ⟨q₀, hq₀, heq.symm⟩
    obtain ⟨q, hq, rfl⟩ := hy'
    have := (h.called_lt q hq).2
    omega
  refine ⟨hxid ▸ h.xid_pos, hxid ▸ h.xid_lt, ?_, ?_, ?_, hnodup, ?_, ?_, ?_, ?_, ?_⟩
  · simpa only [hcalled, hxid] using h.called_lt
  · simpa only [hcalled] using h.unique
  · intro ca' hca'
    obtain ⟨ca, hca, hq, -⟩ := hback ca' hca'
    rw [hcalled, ← hq]
    exact h.caller ca hca
  · intro y hy
    simp only [hcalled]
    rcases (hset y).1 hy with hy | rfl
    · exact h.settled_called y hy
    · exact ⟨q₀, hq₀, rfl⟩
  · rw [hwindow]
    exact (tracks_updateXidRep h.tracks (h.called_lt q₀ hq₀).1 hbound).congr fun y =>
      (hset y).symm
  · intro q hq
    obtain ⟨hlt, hacks⟩ := h.acks q ((hcalled q).1 hq)
    exact ⟨hlt, fun y hy hle => (hset y).2 (.inl (hacks y hy hle))⟩
  · intro ca' hca'
    obtain ⟨ca, hca, hq, hd⟩ := hback ca' hca'
    rw [hset, hd, ← hq, h.progress ca hca]
  · intro q hq
    rcases h.gone q ((hcalled q).1 hq) with ⟨ca, hca, rfl⟩ | hs
    · by_cases hcx : ca.q.xid = q₀.xid
      · exact .inr ((hset _).2 (.inr hcx))
      · obtain ⟨ca', hca', hq'⟩ := hforth ca hca hcx
        exact .inl ⟨ca', hca', hq'⟩
    · exact .inr ((hset _).2 (.inl hs))

end

/-! ## Calls in a list -/

section

variable {calls : List (Caller ι)} {x : ℕ} {ca : Caller ι}

theorem findCall_some (h : Sys.findCall calls x = some ca) : ca ∈ calls ∧ ca.q.xid = x :=
  ⟨List.mem_of_find?_eq_some h, by simpa using List.find?_some h⟩

theorem findCall_none (h : Sys.findCall calls x = none) : ∀ ca ∈ calls, ca.q.xid ≠ x := by
  intro ca hca hx
  have := List.find?_eq_none.1 h ca hca
  simp [hx] at this

theorem mem_setCall {f : Caller ι → Caller ι} :
    ca ∈ Sys.setCall calls x f ↔ ∃ d ∈ calls, ca = if d.q.xid = x then f d else d := by
  simp only [Sys.setCall, List.mem_map, eq_comm]

/-- A change that keeps the request of a call keeps the xids. -/
theorem map_xid_setCall {f : Caller ι → Caller ι} (hf : ∀ d, (f d).q = d.q) :
    (Sys.setCall calls x f).map (·.q.xid) = calls.map (·.q.xid) := by
  simp only [Sys.setCall, List.map_map]
  refine List.map_congr_left fun d _ => ?_
  simp only [Function.comp_apply]
  split
  · rw [hf]
  · rfl

/-- And one that keeps the `done` too keeps what the books are about. -/
theorem map_setCall {f : Caller ι → Caller ι} (hf : ∀ d, (f d).q = d.q)
    (hd : ∀ d, (f d).done = d.done) :
    (Sys.setCall calls x f).map (fun ca => (ca.q, ca.done)) =
      calls.map (fun ca => (ca.q, ca.done)) := by
  simp only [Sys.setCall, List.map_map]
  refine List.map_congr_left fun d _ => ?_
  simp only [Function.comp_apply]
  split
  · rw [hf, hd]
  · rfl

end

/-- `got_pdu` does not touch the request. -/
theorem complete_q (rep : Unmarshall) (ret : Int32) (ca : Caller ι) :
    (Sys.complete rep ret ca).q = ca.q := by
  unfold Sys.complete
  split <;> rfl

/-! ## Replies and returns -/

/-- A reply that arrives settles the call it is for. -/
theorem ledger_gotPdu {i : ι} {c : Rpcc ι} {log log' : List (Event ι Ω)} {x : ℕ} {b : List UInt8}
    {rep : Unmarshall} {ret : Int32} (h : Ledger i c log)
    (hx : ∃ q, .called i q ∈ log ∧ q.xid = x)
    (hlog : log' = match Sys.findCall c.calls x with
      | none => log
      | some ca => if ca.done then log else .replied i x b :: log) :
    Ledger i { c with
      window := updateXidRep c.window x, calls := Sys.setCall c.calls x (Sys.complete rep ret) }
      log' := by
  have hq : ∀ d : Caller ι, (Sys.complete rep ret d).q = d.q := complete_q rep ret
  have hdone : ∀ d : Caller ι, (Sys.complete rep ret d).done = true := by
    intro d
    unfold Sys.complete
    split
    · assumption
    · rfl
  have hset : ∀ y, Settled log' i y ↔ Settled log i y ∨ y = x := by
    have hsame : Settled log i x → ∀ y, Settled log i y ↔ Settled log i y ∨ y = x := fun hs y =>
      ⟨.inl, fun hy => hy.elim id fun heq => heq ▸ hs⟩
    cases hf : Sys.findCall c.calls x with
    | none =>
      rw [hf] at hlog
      subst hlog
      obtain ⟨q, hqc, rfl⟩ := hx
      refine hsame ((h.gone q hqc).resolve_left ?_)
      rintro ⟨ca, hca, rfl⟩
      exact findCall_none hf ca hca rfl
    | some ca =>
      obtain ⟨hca, hcx⟩ := findCall_some hf
      rw [hf] at hlog
      by_cases hd : ca.done = true
      · simp only [hd, if_true] at hlog
        subst hlog
        exact hsame (hcx ▸ (h.progress ca hca).2 hd)
      · simp only [hd] at hlog
        subst hlog
        intro y
        simp only [Settled, Bool.false_eq_true, if_false, List.mem_cons, Event.replied.injEq,
          true_and, reduceCtorEq, false_or]
        constructor
        · rintro (⟨b', ⟨rfl, -⟩ | hb⟩ | hr)
          · exact .inr rfl
          · exact .inl (.inl ⟨b', hb⟩)
          · exact .inl (.inr hr)
        · rintro ((⟨b', hb⟩ | hr) | rfl)
          · exact .inl ⟨b', .inr hb⟩
          · exact .inr hr
          · exact .inl ⟨b, .inl ⟨rfl, rfl⟩⟩
  have hcalled : ∀ q, .called i q ∈ log' ↔ .called i q ∈ log := by
    intro q
    rw [hlog]
    split
    · rfl
    · split
      · rfl
      · simp
  refine h.settle hx hcalled hset rfl rfl ?_ ?_ ?_
  · intro ca' hca'
    obtain ⟨d, hd, rfl⟩ := mem_setCall.1 hca'
    refine ⟨d, hd, ?_, ?_⟩
    · split
      · rw [hq]
      · rfl
    · split
      · rename_i hdx
        simp [hdone, hdx]
      · rename_i hdx
        simp [hdx]
  · intro ca hca hne
    exact ⟨ca, mem_setCall.2 ⟨ca, hca, by rw [if_neg hne]⟩, rfl⟩
  · rw [map_xid_setCall hq]
    exact h.nodup

/-- A call that returns is settled and gone. -/
theorem ledger_finish {i : ι} {c : Rpcc ι} {log : List (Event ι Ω)} {x : ℕ} {ca : Caller ι}
    {binds : List UInt32} {b : Int32} {r : Option ca.q.ret.Val} (h : Ledger i c log)
    (hca : Sys.findCall c.calls x = some ca) :
    Ledger i { c with
      calls := c.calls.filter fun ca => decide (ca.q.xid ≠ x),
      window := updateXidRep c.window x, binds := binds } (.returned i ca.q b r :: log) := by
  obtain ⟨hmem, rfl⟩ := findCall_some hca
  refine h.settle ⟨ca.q, h.caller ca hmem, rfl⟩ (by simp) ?_ rfl rfl ?_ ?_ ?_
  · intro y
    constructor
    · rintro (⟨b', hb⟩ | ⟨q, b', r', hr, rfl⟩)
      · rcases List.mem_cons.1 hb with hb | hb
        · cases hb
        · exact .inl (.inl ⟨b', hb⟩)
      · rcases List.mem_cons.1 hr with hr | hr
        · cases hr
          exact .inr rfl
        · exact .inl (.inr ⟨q, b', r', hr, rfl⟩)
    · rintro ((⟨b', hb⟩ | ⟨q, b', r', hr, rfl⟩) | rfl)
      · exact .inl ⟨b', List.mem_cons_of_mem _ hb⟩
      · exact .inr ⟨q, b', r', List.mem_cons_of_mem _ hr, rfl⟩
      · exact .inr ⟨ca.q, b, r, List.mem_cons_self, rfl⟩
  · intro ca' hca'
    obtain ⟨hm, hne⟩ := List.mem_filter.1 hca'
    refine ⟨ca', hm, rfl, ?_⟩
    simp only [decide_eq_true_eq] at hne
    simp [hne]
  · intro d hd hne
    exact ⟨d, List.mem_filter.2 ⟨hd, by simpa using hne⟩, rfl⟩
  · exact h.nodup.sublist (List.filter_sublist.map _)

end Rpc

end Yfs
