import Yfs.Rpc.Arrivals

/-!
# Replies that are still needed

A header acknowledges only calls that have received a reply or returned
by then (`Acked`). So no request prunes the entry of a call that is
pending, and every copy of it that comes later finds the entry: in every
run in which a reply buffer is its contents (see `Buffers` for the others).
-/

namespace Yfs

open Common

namespace Rpc

variable {ι Ω : Type}

/-- The call `q` of client `i` is in `calls_` and has no reply yet. -/
def Pending (s : Sys ι Ω) (i : ι) (q : Request) : Prop :=
  ∃ ca ∈ (s.clients i).calls, ca.q = q ∧ ca.done = false

/-- Every call acknowledged in a header that client `i` packed was settled
when the header was packed. -/
def Acked (i : ι) (log : List (Event ι Ω)) : Prop :=
  ∀ l₁ l₂ q, log = l₁ ++ .called i q :: l₂ → ∀ y, 1 ≤ y → y ≤ q.xidRep → Settled l₂ i y

section

variable {cfg : Config ι Ω} {i : ι} {s s' : Sys ι Ω} {a : Action ι Ω}

theorem Acked.step [DecidableEq ι] (hb : Based cfg i s) (h : Acked i s.log)
    (hm : Sys.Move cfg s a s') : Acked i s'.log := by
  rcases Sys.log_move hm with heq | ⟨e, heq, hrep⟩
  · rw [heq]
    exact h
  · rw [heq]
    intro l₁ l₂ q hsplit y hy hle
    cases l₁ with
    | nil =>
      -- the header packed in this step acknowledges up to the front
      obtain ⟨rfl, rfl⟩ := List.cons_eq_cons.1 hsplit
      exact hb.ledger.tracks.below y hy (hrep ▸ hle)
    | cons d l₁ => exact h l₁ l₂ q (List.cons_eq_cons.1 hsplit).2 y hy hle

theorem Regular.acked [DecidableEq ι] {acts : List (Action ι Ω)} (hi : Regular cfg i acts)
    (hexec : exec (Sys.step cfg) .init acts = some s) : Acked i s.log :=
  hi.reached (I := fun s => Acked i s.log) (fun l₁ l₂ q hsplit => by simp [Sys.init] at hsplit)
    (fun _ _ _ hb h hm => Acked.step hb h hm) hexec

theorem Based.called_of_pending (hb : Based cfg i s) {q : Request} (hp : Pending s i q) :
    .called i q ∈ s.log := by
  obtain ⟨ca, hca, rfl, -⟩ := hp
  exact hb.ledger.caller ca hca

/-- A pending call has not been acknowledged. -/
theorem Based.lt_xid_of_pending (hb : Based cfg i s) {q q' : Request} (hp : Pending s i q)
    (hq' : .called i q' ∈ s.log) : q'.xidRep < q.xid := by
  obtain ⟨ca, hca, rfl, hdone⟩ := hp
  have hpos := (hb.ledger.called_lt ca.q (hb.ledger.caller ca hca)).1
  by_contra hle
  have hset := (hb.ledger.acks q' hq').2 ca.q.xid hpos (by omega)
  rw [(hb.ledger.progress ca hca).1 hset] at hdone
  cases hdone

/-- **The entry of a pending call is kept.** -/
theorem Arrived.present_of_pending (hb : Based cfg i s) (h : Arrived cfg i s) {q : Request}
    (hp : Pending s i q) (harr : q.hdr (cfg.cltNonce i) ∈ arrivals s.log) :
    Present (cfg.cltNonce i) q.xid (arrivals s.log) := by
  by_contra hno
  obtain ⟨ack, early, hsub, -, hack⟩ := exists_ack_of_not_present hno
    ⟨_, harr, rfl, hb.xid_hdr (hb.called_of_pending hp) _⟩
  obtain ⟨q', hq', rfl⟩ := h.packed ack (hsub.subset List.mem_cons_self) hack.1
  have hlt := hb.lt_xid_of_pending hp hq'
  have hle := hack.2
  rw [hb.xidRep_hdr hq'] at hle
  omega

/-- What a request header of client `i` says, given what was recorded when
it was packed. -/
structure HeaderOk (cfg : Config ι Ω) (i : ι) (q : Request) (before : List (Event ι Ω)) : Prop where
  lt : (q.hdr (cfg.cltNonce i)).xidRep.toUInt32.toNat < (q.hdr (cfg.cltNonce i)).xid.toUInt32.toNat
  acked : ∀ y, 1 ≤ y → y ≤ (q.hdr (cfg.cltNonce i)).xidRep.toUInt32.toNat → Settled before i y

theorem Regular.headerOk [DecidableEq ι] {acts : List (Action ι Ω)} (hi : Regular cfg i acts)
    (hexec : exec (Sys.step cfg) .init acts = some s) {l₁ l₂ : List (Event ι Ω)} {q : Request}
    (hlog : s.log = l₁ ++ .called i q :: l₂) : HeaderOk cfg i q l₂ := by
  have hb := hi.based hexec
  have hq : .called i q ∈ s.log := hlog ▸ List.mem_append_right l₁ List.mem_cons_self
  refine ⟨?_, fun y hy hle => ?_⟩
  · rw [hb.xid_hdr hq, hb.xidRep_hdr hq]
    exact (hb.ledger.acks q hq).1
  · rw [hb.xidRep_hdr hq] at hle
    exact hi.acked hexec l₁ l₂ q hlog y hy hle

/-- **A reply that is still needed is kept.** In every run, the headers a
client packs acknowledge only calls that are settled; and once a pending
call has been found new, its entry is in the reply window and a further
copy is found in progress or done. -/
theorem neededReply_kept [DecidableEq ι] {acts : List (Action ι Ω)} (hi : Regular cfg i acts)
    (hexec : exec (Sys.step cfg) .init acts = some s) :
    (∀ l₁ l₂ q, s.log = l₁ ++ .called i q :: l₂ → HeaderOk cfg i q l₂) ∧
      ∀ q, Pending s i q → .classified (q.hdr (cfg.cltNonce i)) .new ∈ s.log →
        (∃ e ∈ s.replyWindow (cfg.cltNonce i), e.xid = q.xid) ∧
        ∀ a s' st, s.step cfg a = some s' →
          s'.log = .classified (q.hdr (cfg.cltNonce i)) st :: s.log →
          st = .inprogress ∨ st = .done := by
  have hb := hi.based hexec
  have harr := hi.arrived hexec
  refine ⟨fun l₁ l₂ q hlog => hi.headerOk hexec hlog, fun q hp hnew => ?_⟩
  have hmem : q.hdr (cfg.cltNonce i) ∈ arrivals s.log := List.mem_filterMap.2 ⟨_, hnew, rfl⟩
  have hpres := harr.present_of_pending hb hp hmem
  refine ⟨(harr.entry q.xid).2 hpres, fun a s' st hs hlog => ?_⟩
  -- what the record says of the copy classified last
  have hj := (harr.step hb (Sys.move_of_step hs)).judged
  rw [hlog] at hj
  obtain ⟨hforgotten, hiff⟩ := hj.1 rfl
  rw [hb.xid_hdr (hb.called_of_pending hp)] at hiff
  cases st with
  | new => exact absurd hpres (hiff.1 rfl)
  | inprogress => exact .inl rfl
  | done => exact .inr rfl
  | forgotten => exact absurd rfl hforgotten

end

end Rpc

end Yfs
