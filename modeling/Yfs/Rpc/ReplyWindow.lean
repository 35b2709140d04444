import Mathlib.Data.List.Nodup
import Mathlib.Order.Basic

/-!
# The reply window of the server

`rpcs::checkduplicate_and_update` and `rpcs::add_reply`, on the reply
list of one client. Members are kept while the client has not
acknowledged them; a request is looked up among them. The lemmas say
what each does to the set of xids in the list and to each entry, so that
nothing above unfolds the loops.
-/

namespace Yfs

/-- `rpcs::rpcstate_t`. -/
inductive RpcState where
  | new
  | inprogress
  | done
  | forgotten
deriving DecidableEq

/-- `rpcs::reply_t`. The buffer and its size are one list. -/
structure ReplyT where
  xid : ℕ
  cbPresent : Bool
  buf : List UInt8
deriving DecidableEq

/-- `reply_t(xid)`. -/
def ReplyT.new (xid : ℕ) : ReplyT := ⟨xid, false, []⟩

/-- The loop of `checkduplicate_and_update`: what is left of the list,
and the entry `it_xid` points to, the last that matched. -/
def scanReplies (xid xidRep : ℕ) : List ReplyT → List ReplyT × Option ReplyT
  | [] => ([], none)
  | e :: l =>
    let r := scanReplies xid xidRep l
    let found := if r.2.isSome then r.2 else if e.xid = xid ∧ xid > xidRep then some e else none
    (if e.xid ≤ xidRep then r.1 else e :: r.1, found)

/-- `rpcs::checkduplicate_and_update`: the list after it, the state, and
the buffer stored through `b` and `sz`, when it is. -/
def checkduplicateAndUpdate (l : List ReplyT) (xid xidRep : ℕ) :
    List ReplyT × RpcState × List UInt8 :=
  if l.length = 0 then (l ++ [.new xid], .new, [])
  else
    let r := scanReplies xid xidRep l
    match r.2 with
    | some e => if e.cbPresent then (r.1, .done, e.buf) else (r.1, .inprogress, [])
    | none => if xid ≤ xidRep then (r.1, .forgotten, []) else (r.1 ++ [.new xid], .new, [])

/-- `rpcs::add_reply`. -/
def addReply (l : List ReplyT) (xid : ℕ) (b : List UInt8) : List ReplyT :=
  l.map fun e => if e.xid = xid then { e with buf := b, cbPresent := true } else e

/-! ## The loop -/

theorem scanReplies_fst (xid xidRep : ℕ) (l : List ReplyT) :
    (scanReplies xid xidRep l).1 = l.filter (fun e => decide (xidRep < e.xid)) := by
  induction l with
  | nil => rfl
  | cons e l ih =>
    by_cases h : e.xid ≤ xidRep
    · simp [scanReplies, ih, h]
    · simp [scanReplies, ih, h, Nat.lt_of_not_le h]

theorem scanReplies_some {xid xidRep : ℕ} {l : List ReplyT} {e : ReplyT}
    (h : (scanReplies xid xidRep l).2 = some e) : e ∈ l ∧ e.xid = xid ∧ xidRep < xid := by
  induction l with
  | nil => cases h
  | cons d l ih =>
    simp only [scanReplies] at h
    split at h
    · obtain ⟨hm, hx⟩ := ih h
      exact ⟨List.mem_cons_of_mem d hm, hx⟩
    · split at h
      · rename_i hd
        cases h
        exact ⟨List.mem_cons_self, hd⟩
      · cases h

theorem scanReplies_none {xid xidRep : ℕ} {l : List ReplyT} (hx : xidRep < xid)
    (h : (scanReplies xid xidRep l).2 = none) : ∀ e ∈ l, e.xid ≠ xid := by
  induction l with
  | nil => simp
  | cons d l ih =>
    simp only [scanReplies] at h
    split at h
    · rename_i hs
      rw [h] at hs
      cases hs
    · rename_i hs
      split at h
      · cases h
      · rename_i hd
        intro e he
        rcases List.mem_cons.1 he with rfl | he
        · exact fun hex => hd ⟨hex, hx⟩
        · exact ih (Option.not_isSome_iff_eq_none.1 hs) e he

/-! ## Classification -/

/-- What a request finds, and what it leaves, in the list of its client. -/
inductive Classified (l : List ReplyT) (xid xidRep : ℕ) : List ReplyT × RpcState × List UInt8 → Prop
  | new (hno : ∀ e ∈ l, e.xid ≠ xid) :
      Classified l xid xidRep
        (l.filter (fun e => decide (xidRep < e.xid)) ++ [.new xid], .new, [])
  | inprogress (e : ReplyT) (he : e ∈ l) (hx : e.xid = xid) (hp : e.cbPresent = false)
      (hlt : xidRep < xid) :
      Classified l xid xidRep (l.filter (fun e => decide (xidRep < e.xid)), .inprogress, [])
  | done (e : ReplyT) (he : e ∈ l) (hx : e.xid = xid) (hp : e.cbPresent = true)
      (hlt : xidRep < xid) :
      Classified l xid xidRep (l.filter (fun e => decide (xidRep < e.xid)), .done, e.buf)
  /-- The request acknowledges itself, as none that `call1` packed does. -/
  | forgotten (hle : xid ≤ xidRep) :
      Classified l xid xidRep (l.filter (fun e => decide (xidRep < e.xid)), .forgotten, [])

/-- **Classification.** The entries acknowledged go, and a request that
does not acknowledge itself is new exactly when there is no entry for it. -/
theorem classified_checkduplicate (l : List ReplyT) (xid xidRep : ℕ) :
    Classified l xid xidRep (checkduplicateAndUpdate l xid xidRep) := by
  unfold checkduplicateAndUpdate
  split
  · rename_i h0
    obtain rfl : l = [] := List.length_eq_zero_iff.1 h0
    exact .new (by simp)
  · dsimp only
    rw [scanReplies_fst]
    cases hs : (scanReplies xid xidRep l).2 with
    | none =>
      dsimp only
      by_cases hle : xid ≤ xidRep
      · rw [if_pos hle]
        exact .forgotten hle
      · rw [if_neg hle]
        exact .new (scanReplies_none (Nat.lt_of_not_le hle) hs)
    | some e =>
      obtain ⟨he, hex, hlt⟩ := scanReplies_some hs
      dsimp only
      cases hp : e.cbPresent with
      | false => exact .inprogress e he hex hp hlt
      | true => exact .done e he hex hp hlt

/-! ## Entries -/

section

variable {l : List ReplyT} {xid xidRep : ℕ} {r : List ReplyT × RpcState × List UInt8}

/-- An entry that is not acknowledged stays. -/
theorem Classified.mem_of_lt (h : Classified l xid xidRep r) {e : ReplyT} (he : e ∈ l)
    (hlt : xidRep < e.xid) : e ∈ r.1 := by
  have hkeep : e ∈ l.filter (fun e => decide (xidRep < e.xid)) :=
    List.mem_filter.2 ⟨he, decide_eq_true hlt⟩
  cases h with
  | new => exact List.mem_append_left _ hkeep
  | inprogress => exact hkeep
  | done => exact hkeep
  | forgotten => exact hkeep

/-- No xid gets a second entry. -/
theorem Classified.nodup (h : Classified l xid xidRep r) (hl : (l.map (·.xid)).Nodup) :
    (r.1.map (·.xid)).Nodup := by
  have hkeep : ((l.filter (fun e => decide (xidRep < e.xid))).map (·.xid)).Nodup :=
    hl.sublist (List.filter_sublist.map _)
  cases h with
  | new hno =>
    rw [List.map_append, List.nodup_append]
    refine ⟨hkeep, List.nodup_singleton _, ?_⟩
    rintro a ha b hb rfl
    obtain ⟨e, he, rfl⟩ := List.mem_map.1 ha
    exact hno e (List.mem_filter.1 he).1 (List.mem_singleton.1 hb)
  | inprogress => exact hkeep
  | done => exact hkeep
  | forgotten => exact hkeep

theorem map_xid_addReply (l : List ReplyT) (x : ℕ) (b : List UInt8) :
    (addReply l x b).map (·.xid) = l.map (·.xid) := by
  rw [addReply, List.map_map]
  refine List.map_congr_left fun e _ => ?_
  simp only [Function.comp_apply]
  split <;> rfl

end

/-! ## The window as a request should find it -/

/-- What the window is kept for, in its own terms: the entries the client
has acknowledged are gone and the others are as they were, a request is
answered by its own entry, and only a request that is neither acknowledged
nor known gets an entry. -/
structure ClassifiedByXid (l : List ReplyT) (xid xidRep : ℕ)
    (r : List ReplyT × RpcState × List UInt8) : Prop where
  forgotten : xid ≤ xidRep → r = (l.filter (fun e => decide (xidRep < e.xid)), .forgotten, [])
  done : xidRep < xid → ∀ e ∈ l, e.xid = xid → e.cbPresent = true →
    r = (l.filter (fun e => decide (xidRep < e.xid)), .done, e.buf)
  inprogress : xidRep < xid → ∀ e ∈ l, e.xid = xid → e.cbPresent = false →
    r = (l.filter (fun e => decide (xidRep < e.xid)), .inprogress, [])
  new : xidRep < xid → (∀ e ∈ l, e.xid ≠ xid) →
    r = (l.filter (fun e => decide (xidRep < e.xid)) ++ [.new xid], .new, [])
  nodup : (r.1.map (·.xid)).Nodup

/-- Distinct xids: an entry is known by its xid. -/
theorem eq_of_xid_eq {l : List ReplyT} (hl : (l.map (·.xid)).Nodup) {d e : ReplyT} (hd : d ∈ l)
    (he : e ∈ l) (hde : d.xid = e.xid) : d = e :=
  List.inj_on_of_nodup_map hl hd he hde

/-- The general path forgets a request that acknowledges itself. -/
theorem checkduplicate_of_le {l : List ReplyT} {xid xidRep : ℕ} (hne : l ≠ [])
    (hle : xid ≤ xidRep) :
    checkduplicateAndUpdate l xid xidRep =
      (l.filter (fun e => decide (xidRep < e.xid)), .forgotten, []) := by
  have hlen : l.length ≠ 0 := fun h0 => hne (List.length_eq_zero_iff.1 h0)
  have hnone : (scanReplies xid xidRep l).2 = none := by
    rw [Option.eq_none_iff_forall_ne_some]
    intro e he
    have := (scanReplies_some he).2.2
    omega
  unfold checkduplicateAndUpdate
  rw [if_neg hlen]
  dsimp only
  rw [hnone, scanReplies_fst]
  dsimp only
  rw [if_pos hle]

/-- A request that does not acknowledge itself is classified by its
entry, on either path. -/
theorem Classified.byXid {l : List ReplyT} {xid xidRep : ℕ}
    {r : List ReplyT × RpcState × List UInt8} (h : Classified l xid xidRep r)
    (hl : (l.map (·.xid)).Nodup) (hlt : xidRep < xid) : ClassifiedByXid l xid xidRep r := by
  have hnodup := h.nodup hl
  cases h with
  | new hno =>
    exact ⟨by omega, fun _ e he hx => absurd hx (hno e he), fun _ e he hx => absurd hx (hno e he),
      fun _ _ => rfl, hnodup⟩
  | inprogress d hd hdx hp =>
    refine ⟨by omega, ?_, fun _ _ _ _ _ => rfl, fun _ hno => absurd hdx (hno d hd), hnodup⟩
    intro _ e he hx hpe
    rw [eq_of_xid_eq hl he hd (hx.trans hdx.symm), hp] at hpe
    cases hpe
  | done d hd hdx hp =>
    refine ⟨by omega, ?_, ?_, fun _ hno => absurd hdx (hno d hd), hnodup⟩
    · intro _ e he hx _
      rw [eq_of_xid_eq hl he hd (hx.trans hdx.symm)]
    · intro _ e he hx hpe
      rw [eq_of_xid_eq hl he hd (hx.trans hdx.symm), hp] at hpe
      cases hpe
  | forgotten hle => omega

/-- **When the window classifies by xid.** The early return for the empty
list does not make the test of the general path, so that a request the
client has acknowledged is taken for a new one there, and nowhere else. -/
theorem checkduplicate_byXid_iff (l : List ReplyT) (xid xidRep : ℕ)
    (hl : (l.map (·.xid)).Nodup) :
    ClassifiedByXid l xid xidRep (checkduplicateAndUpdate l xid xidRep) ↔
      l ≠ [] ∨ xidRep < xid := by
  have hclass := classified_checkduplicate l xid xidRep
  constructor
  · intro h
    by_contra hc
    obtain ⟨rfl, hle⟩ : l = [] ∧ xid ≤ xidRep := by
      rw [not_or, not_not, Nat.not_lt] at hc
      exact hc
    have hforgotten := h.forgotten hle
    simp [checkduplicateAndUpdate] at hforgotten
  · intro h
    rcases Nat.lt_or_ge xidRep xid with hlt | hle
    · exact hclass.byXid hl hlt
    · have hne : l ≠ [] := h.resolve_right (by omega)
      have hnodup := hclass.nodup hl
      rw [checkduplicate_of_le hne hle] at hnodup ⊢
      exact ⟨fun _ => rfl, by omega, by omega, by omega, hnodup⟩

/-- A repeated request finds the buffer stored for it, and the entry
acknowledged goes. -/
theorem checkduplicate_byXid_repeated :
    ClassifiedByXid [⟨3, true, [1]⟩, ⟨5, true, [2]⟩] 5 3
      (checkduplicateAndUpdate [⟨3, true, [1]⟩, ⟨5, true, [2]⟩] 5 3) :=
  (checkduplicate_byXid_iff _ 5 3 (by decide)).2 (.inr (by decide))

/-- An acknowledged request that comes back to an emptied list is taken
for a new one. -/
theorem checkduplicate_empty_takes_acknowledged :
    checkduplicateAndUpdate [] 3 4 = ([.new 3], .new, []) ∧
      ¬ ClassifiedByXid [] 3 4 (checkduplicateAndUpdate [] 3 4) := by
  refine ⟨rfl, fun h => ?_⟩
  have hforgotten := h.forgotten (by decide)
  simp [checkduplicateAndUpdate] at hforgotten

end Yfs
