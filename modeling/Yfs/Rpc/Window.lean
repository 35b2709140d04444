import Mathlib.Algebra.Group.Nat.Defs
import Mathlib.Data.List.TakeWhile
import Mathlib.Order.Bounds.Basic
import Mathlib.Tactic.Tauto

/-!
# The acknowledgement window of a client

`xid_rep_window_` of `rpcc`: a list whose front stands for all xids up
to it and whose other members are replies that came out of order.
`rpcc::update_xid_rep` inserts an xid and then pops the front as long as
its successor is there. `Tracks` says what the list stands for, and
`tracks_updateXidRep` that the function keeps it; `window_of_updates`
says it of every run of updates, with the nodes the iterator points to.
-/

namespace Yfs

/-- `xid_rep_window_.front()`. -/
def windowFront (w : List ℕ) : ℕ := w.headD 0

@[simp] theorem windowFront_cons (f : ℕ) (w : List ℕ) : windowFront (f :: w) = f := rfl

/-- The first loop of `update_xid_rep`: in front of the first larger
member, or at the end. -/
def insertXid (x : ℕ) : List ℕ → List ℕ
  | [] => [x]
  | y :: w => if y > x then x :: y :: w else y :: insertXid x w

/-- The loop after the label `compress`. The members in front of the
iterator are `before`, and the one it points to is the next; the inner
loop ends where the front is that member itself. -/
def compress (before : List ℕ) : List ℕ → List ℕ
  | [] => before
  | y :: w => compress (before.dropWhile (fun f => (f + 1) % 2 ^ 32 == y) ++ [y]) w

/-- `rpcc::update_xid_rep`. -/
def updateXidRep (w : List ℕ) (x : ℕ) : List ℕ :=
  if x ≤ windowFront w then w
  else
    match insertXid x w with
    | [] => []
    | f :: w => compress [f] w

/-- The window `w` records the xids in `P`, and no others: all up to its
front, but not the next, and above the front its members. -/
structure Tracks (P : ℕ → Prop) (w : List ℕ) : Prop where
  ne_nil : w ≠ []
  sorted : w.Pairwise (· ≤ ·)
  below : ∀ y, 1 ≤ y → y ≤ windowFront w → P y
  next : ¬ P (windowFront w + 1)
  above : ∀ y, windowFront w < y → (y ∈ w ↔ P y)

theorem Tracks.congr {P Q : ℕ → Prop} {w : List ℕ} (h : Tracks P w) (hPQ : ∀ y, P y ↔ Q y) :
    Tracks Q w := by
  have : P = Q := funext fun y => propext (hPQ y)
  exact this ▸ h

theorem tracks_new : Tracks (fun _ => False) [0] where
  ne_nil := by simp
  sorted := by simp
  below := by
    intro y h1 h0
    simp only [windowFront_cons] at h0
    omega
  next := id
  above := by
    intro y hy
    simp only [windowFront_cons] at hy
    simp only [List.mem_singleton, iff_false]
    omega

theorem mem_insertXid {x y : ℕ} {w : List ℕ} : y ∈ insertXid x w ↔ y = x ∨ y ∈ w := by
  induction w with
  | nil => simp [insertXid]
  | cons z w ih =>
    unfold insertXid
    split
    · simp
    · simp only [List.mem_cons, ih]
      tauto

theorem sorted_insertXid {x : ℕ} {w : List ℕ} (h : w.Pairwise (· ≤ ·)) :
    (insertXid x w).Pairwise (· ≤ ·) := by
  induction w with
  | nil => simp [insertXid]
  | cons z w ih =>
    obtain ⟨hz, hw⟩ := List.pairwise_cons.1 h
    unfold insertXid
    split
    · rename_i hlt
      refine List.pairwise_cons.2 ⟨fun y hy => ?_, h⟩
      rcases List.mem_cons.1 hy with rfl | hy
      · omega
      · have := hz y hy
        omega
    · refine List.pairwise_cons.2 ⟨fun y hy => ?_, ih hw⟩
      rcases mem_insertXid.1 hy with rfl | hy
      · omega
      · exact hz y hy

/-- The invariant of the second loop: what is in front of the iterator
has been compressed. -/
structure Compressing (P : ℕ → Prop) (before w : List ℕ) : Prop where
  ne_nil : before ≠ []
  sorted : (before ++ w).Pairwise (· ≤ ·)
  below : ∀ y, 1 ≤ y → y ≤ windowFront before → P y
  next : ∀ y ∈ before, y ≠ windowFront before + 1
  above : ∀ y, windowFront before < y → (y ∈ before ++ w ↔ P y)

/-- A front that is one below the next member is popped, with its
copies; any other stays. -/
theorem Compressing.dropWhile_eq {P : ℕ → Prop} {before w : List ℕ} {y : ℕ}
    (h : Compressing P before (y :: w)) (hlt : windowFront before < 2 ^ 32 - 1) :
    before.dropWhile (fun f => (f + 1) % 2 ^ 32 == y) =
      if windowFront before + 1 = y then [] else before := by
  obtain ⟨f, l, rfl⟩ := List.exists_cons_of_ne_nil h.ne_nil
  rw [windowFront_cons] at hlt
  have hf : (f + 1) % 2 ^ 32 = f + 1 := Nat.mod_eq_of_lt (by omega)
  by_cases hy : windowFront (f :: l) + 1 = y
  · rw [if_pos hy]
    rw [windowFront_cons] at hy
    -- what lies between the front and its successor can only be copies of the front
    rw [List.dropWhile_eq_nil_iff]
    intro g hg
    have hfg : f ≤ g := by
      rcases List.mem_cons.1 hg with rfl | hg
      · exact le_rfl
      · exact (List.pairwise_cons.1 (List.pairwise_append.1 h.sorted).1).1 g hg
    have hgy : g ≤ y := (List.pairwise_append.1 h.sorted).2.2 g hg y List.mem_cons_self
    have hne := h.next g hg
    simp only [windowFront_cons] at hne
    have hgf : g = f := by omega
    rw [hgf, hf, hy, beq_self_eq_true]
  · rw [if_neg hy, List.dropWhile_cons_of_neg]
    simp only [hf, beq_iff_eq]
    exact hy

theorem Compressing.step {P : ℕ → Prop} {before w : List ℕ} {y : ℕ}
    (h : Compressing P before (y :: w)) (hlt : windowFront before < 2 ^ 32 - 1) :
    Compressing P (before.dropWhile (fun f => (f + 1) % 2 ^ 32 == y) ++ [y]) w := by
  rw [h.dropWhile_eq hlt]
  have hsorted := h.sorted
  rw [List.append_cons] at hsorted
  split
  · rename_i hy
    have hP : P y := (h.above y (by omega)).1 (by simp)
    refine ⟨by simp, (List.pairwise_append.1 h.sorted).2.1, ?_, ?_, ?_⟩
    · intro z hz hzy
      simp only [List.nil_append, windowFront_cons] at hzy
      rcases Nat.lt_or_ge (windowFront before) z with hgt | hle
      · rwa [show z = y by omega]
      · exact h.below z hz hle
    · intro z hz
      simp only [List.nil_append, List.mem_singleton, windowFront_cons] at hz ⊢
      omega
    · intro z hz
      simp only [List.nil_append, windowFront_cons] at hz
      rw [← h.above z (by omega)]
      simp only [List.nil_append, List.singleton_append, List.mem_append]
      refine ⟨.inr, fun hmem => hmem.resolve_left fun hb => ?_⟩
      have := (List.pairwise_append.1 h.sorted).2.2 z hb y List.mem_cons_self
      omega
  · rename_i hy
    have hfront : windowFront (before ++ [y]) = windowFront before := by
      obtain ⟨f, l, rfl⟩ := List.exists_cons_of_ne_nil h.ne_nil
      rfl
    refine ⟨by simp, by simpa using hsorted, ?_, ?_, ?_⟩
    · rw [hfront]
      exact h.below
    · rw [hfront]
      intro z hz
      rcases List.mem_append.1 hz with hz | hz
      · exact h.next z hz
      · rw [List.mem_singleton.1 hz]
        exact fun hc => hy hc.symm
    · rw [hfront]
      intro z hz
      rw [← h.above z hz, ← List.append_cons]

/-- **The second loop**, by induction on what the iterator has not
passed. -/
theorem Compressing.tracks {P : ℕ → Prop} {before w : List ℕ} (h : Compressing P before w)
    (hlt : ∀ y ∈ before ++ w, y < 2 ^ 32 - 1) : Tracks P (compress before w) := by
  induction w generalizing before with
  | nil =>
    have hsorted := h.sorted
    have habove := h.above
    rw [List.append_nil] at hsorted habove
    refine ⟨h.ne_nil, hsorted, h.below, fun hP => ?_, habove⟩
    exact h.next _ ((habove _ (Nat.lt_succ_self _)).2 hP) rfl
  | cons y w ih =>
    have hfront : windowFront before ∈ before := by
      obtain ⟨f, l, rfl⟩ := List.exists_cons_of_ne_nil h.ne_nil
      exact List.mem_cons_self
    have hlt' := hlt _ (List.mem_append_left _ hfront)
    refine ih (h.step hlt') fun z hz => hlt z ?_
    rw [h.dropWhile_eq hlt'] at hz
    split at hz <;> simp at hz ⊢ <;> tauto

/-- **`update_xid_rep` records one more xid.** -/
theorem tracks_updateXidRep {P : ℕ → Prop} {w : List ℕ} {x : ℕ} (h : Tracks P w) (hx : 1 ≤ x)
    (hlt : ∀ y, P y ∨ y = x → y < 2 ^ 32 - 1) :
    Tracks (fun y => P y ∨ y = x) (updateXidRep w x) := by
  obtain ⟨f, l, rfl⟩ := List.exists_cons_of_ne_nil h.ne_nil
  have hbelow := h.below
  have hnext := h.next
  have habove := h.above
  simp only [windowFront_cons] at hbelow hnext habove
  by_cases hle : x ≤ windowFront (f :: l)
  · -- nothing to do: the front covers `x` already
    have hP : ∀ y, P y ∨ y = x ↔ P y :=
      fun y => ⟨fun hy => hy.elim id fun hyx => hyx ▸ hbelow x hx hle, .inl⟩
    rw [updateXidRep, if_pos hle]
    simp only [hP]
    exact h
  · have hlt' : f < x := Nat.lt_of_not_le hle
    have hins : insertXid x (f :: l) = f :: insertXid x l := by
      rw [insertXid, if_neg (by omega)]
    have hmem : ∀ y, y ∈ f :: insertXid x l ↔ y = x ∨ y ∈ f :: l := by
      intro y
      rw [← hins, mem_insertXid]
    rw [updateXidRep, if_neg hle, hins]
    refine Compressing.tracks ⟨by simp, ?_, ?_, ?_, ?_⟩ ?_
    · rw [List.singleton_append, ← hins]
      exact sorted_insertXid h.sorted
    · intro y h1 hyf
      exact .inl (hbelow y h1 hyf)
    · intro y hy
      simp only [List.mem_singleton, windowFront_cons] at hy ⊢
      omega
    · intro y hy
      rw [List.singleton_append, hmem, habove y hy, or_comm]
    · intro y hy
      rw [List.singleton_append, hmem] at hy
      rcases hy with rfl | hy
      · exact hlt _ (.inr rfl)
      · rcases Nat.lt_or_ge f y with hgt | hge
        · exact hlt y (.inl ((habove y hgt).1 hy))
        · have := hlt x (.inr rfl)
          omega

/-! ## The iterator of the second loop

`compress` takes it for granted that the node the iterator points to
stays. The same loop with the nodes taken one by one has no result where
`pop_front` removes that node, and `update_xid_rep` none where `front` is
asked of an empty list; neither ever happens. -/

/-- `while (front() + 1 == *it) pop_front()`, with `before` in front of
the iterator and `y` where it points. -/
def popFronts (y : ℕ) : List ℕ → Option (List ℕ)
  | [] => if (y + 1) % 2 ^ 32 = y then none else some []
  | f :: before => if (f + 1) % 2 ^ 32 = y then popFronts y before else some (f :: before)

/-- The loop after the label `compress`, node by node. -/
def compressNodes (before : List ℕ) : List ℕ → Option (List ℕ)
  | [] => some before
  | y :: w => (popFronts y before).bind fun left => compressNodes (left ++ [y]) w

/-- `rpcc::update_xid_rep`, node by node. -/
def updateXidRepNodes (w : List ℕ) (x : ℕ) : Option (List ℕ) :=
  match w with
  | [] => none
  | _ :: _ =>
    if x ≤ windowFront w then some w
    else
      match insertXid x w with
      | [] => none
      | f :: w => compressNodes [f] w

/-- The node under the iterator is never popped: it is not its own
successor, also where that wraps. -/
theorem popFronts_eq (y : ℕ) (before : List ℕ) :
    popFronts y before = some (before.dropWhile (fun f => (f + 1) % 2 ^ 32 == y)) := by
  induction before with
  | nil =>
    have hne : (y + 1) % 2 ^ 32 ≠ y := by omega
    rw [popFronts, if_neg hne, List.dropWhile_nil]
  | cons f before ih =>
    rw [popFronts]
    split
    · rename_i hf
      rw [ih, List.dropWhile_cons_of_pos (by rw [hf, beq_self_eq_true])]
    · rename_i hf
      rw [List.dropWhile_cons_of_neg (by rwa [beq_iff_eq])]

theorem compressNodes_eq (before w : List ℕ) :
    compressNodes before w = some (compress before w) := by
  induction w generalizing before with
  | nil => rfl
  | cons y w ih => rw [compressNodes, popFronts_eq, Option.bind_some, ih, compress]

theorem updateXidRepNodes_eq {w : List ℕ} (hw : w ≠ []) (x : ℕ) :
    updateXidRepNodes w x = some (updateXidRep w x) := by
  obtain ⟨f, l, rfl⟩ := List.exists_cons_of_ne_nil hw
  by_cases hle : x ≤ windowFront (f :: l)
  · rw [updateXidRep, if_pos hle, updateXidRepNodes, if_pos hle]
  · have hins : insertXid x (f :: l) = f :: insertXid x l := by
      rw [windowFront_cons] at hle
      rw [insertXid, if_neg (by omega)]
    rw [updateXidRep, if_neg hle, updateXidRepNodes, if_neg hle, hins]
    exact compressNodes_eq [f] _

/-- A run of updates records what is passed to it, by induction on the
calls. -/
theorem tracks_updates {P : ℕ → Prop} {w : List ℕ} (xs : List ℕ) (h : Tracks P w)
    (hP : ∀ y, P y → y < 2 ^ 32 - 1) (hxs : ∀ x ∈ xs, 1 ≤ x ∧ x ≤ 2 ^ 32 - 2) :
    ∃ w', xs.foldlM updateXidRepNodes w = some w' ∧ Tracks (fun y => P y ∨ y ∈ xs) w' := by
  induction xs generalizing P w with
  | nil => exact ⟨w, rfl, h.congr fun y => by simp⟩
  | cons x xs ih =>
    have hx := hxs x List.mem_cons_self
    have hP' : ∀ y, P y ∨ y = x → y < 2 ^ 32 - 1 := by
      rintro y (hy | rfl)
      · exact hP y hy
      · omega
    obtain ⟨w', hrun, hw'⟩ := ih (tracks_updateXidRep h hx.1 hP') hP'
      fun z hz => hxs z (List.mem_cons_of_mem x hz)
    refine ⟨w', ?_, hw'.congr fun y => ?_⟩
    · rw [List.foldlM_cons, updateXidRepNodes_eq h.ne_nil]
      exact hrun
    · rw [List.mem_cons, or_assoc]

/-- **The window is what has been acknowledged.** Whatever xids come, in
any order and as often as they like, no node is popped from under the
iterator, the front is the largest number up to which all have come, and
above it the members are those that have. -/
theorem window_of_updates (xs : List ℕ) (hxs : ∀ x ∈ xs, 1 ≤ x ∧ x ≤ 2 ^ 32 - 2) :
    ∃ w, xs.foldlM updateXidRepNodes [0] = some w ∧ w ≠ [] ∧ w.Pairwise (· ≤ ·) ∧
      IsGreatest {n | ∀ y, 1 ≤ y → y ≤ n → y ∈ xs} (windowFront w) ∧
      ∀ y, windowFront w < y → (y ∈ w ↔ y ∈ xs) := by
  obtain ⟨w, hrun, hw⟩ := tracks_updates xs tracks_new (fun _ hy => hy.elim) hxs
  have hw : Tracks (· ∈ xs) w := hw.congr fun y => by simp
  refine ⟨w, hrun, hw.ne_nil, hw.sorted, ⟨hw.below, fun n hn => ?_⟩, hw.above⟩
  rcases Nat.lt_or_ge (windowFront w) n with hlt | hge
  · exact absurd (hn _ (by omega) hlt) hw.next
  · exact hge

/-- Two out of order, one of them twice. -/
theorem window_of_updates_out_of_order :
    ∃ w, [2, 2, 4, 1].foldlM updateXidRepNodes [0] = some w ∧ w ≠ [] ∧ w.Pairwise (· ≤ ·) ∧
      IsGreatest {n | ∀ y, 1 ≤ y → y ≤ n → y ∈ [2, 2, 4, 1]} (windowFront w) ∧
      ∀ y, windowFront w < y → (y ∈ w ↔ y ∈ [2, 2, 4, 1]) :=
  window_of_updates [2, 2, 4, 1] (by decide)

end Yfs
