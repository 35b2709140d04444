import Mathlib.Logic.Function.Basic
import Mathlib.Logic.Relation
import Yfs.Common.Linear

/-!
# Programs that call an object

A program is what a thread does between its calls: it is done, or it makes
a call and goes on with what the call returns. `Runs` is what it does where
nobody else calls the object. In `Atomic` there are several threads, and a
call of each is one step of the object.

Threads that see a linearizable history, and wait for each call before the
next, have done what they do where their calls are single steps
(`Linearizable.atomic`): the order of the calls of one thread is the order
in which the thread made them (`Linearization.filter_thread`), and along
the order of all of them the threads go on one after the other.
-/

namespace Common

/-- A program of calls `κ` that return `ρ`. -/
inductive Prog (κ : Type) (ρ : κ → Type) (α : Type)
  | done (a : α)
  | call (c : κ) (next : ρ c → Prog κ ρ α)

variable {σ κ ι α β : Type} {ρ : κ → Type}

namespace Prog

def bind : Prog κ ρ α → (α → Prog κ ρ β) → Prog κ ρ β
  | .done a, f => f a
  | .call c next, f => .call c fun r => (next r).bind f

instance : Monad (Prog κ ρ) where
  pure := .done
  bind := bind

/-- A call, and nothing else. -/
def ask (c : κ) : Prog κ ρ (ρ c) := .call c .done

/-- What a program that is done returned. -/
def outcome : Prog κ ρ α → Option α
  | .done a => some a
  | .call _ _ => none

/-- `C` holds of every call the program may come to. -/
def Calls (C : κ → Prop) : Prog κ ρ α → Prop
  | .done _ => True
  | .call c next => C c ∧ ∀ r, (next r).Calls C

/-- The program leads the object from `x` to `y`, and returns `a`. -/
inductive Runs (does : σ → (c : κ) → ρ c → σ → Prop) : Prog κ ρ α → σ → α → σ → Prop
  | done (a : α) (x : σ) : Runs does (.done a) x a x
  | call {c : κ} {next : ρ c → Prog κ ρ α} {r : ρ c} {x x' y : σ} {a : α} :
      does x c r x' → Runs does (next r) x' a y → Runs does (.call c next) x a y

/-- The calls, newest first, lead from one program to the other. -/
inductive Follows (p : Prog κ ρ α) : List ((c : κ) × ρ c) → Prog κ ρ α → Prop
  | nil : Follows p [] p
  | cons {calls : List ((c : κ) × ρ c)} {c : κ} {next : ρ c → Prog κ ρ α} (r : ρ c) :
      Follows p calls (.call c next) → Follows p (⟨c, r⟩ :: calls) (next r)

variable {does : σ → (c : κ) → ρ c → σ → Prop} {x y : σ}

theorem eq_done_of_outcome {p : Prog κ ρ α} {a : α} (h : p.outcome = some a) : p = .done a := by
  cases p with
  | done b => exact congrArg _ (Option.some.inj h)
  | call => cases h

theorem calls_pure (C : κ → Prop) (a : α) : (pure a : Prog κ ρ α).Calls C := trivial

@[simp] theorem calls_ask {C : κ → Prop} {c : κ} : (ask c : Prog κ ρ (ρ c)).Calls C ↔ C c :=
  and_iff_left fun _ => trivial

theorem Calls.bind {C : κ → Prop} {p : Prog κ ρ α} {f : α → Prog κ ρ β} (hp : p.Calls C)
    (hf : ∀ a, (f a).Calls C) : (p >>= f).Calls C := by
  induction p with
  | done a => exact hf a
  | call c next ih => exact ⟨hp.1, fun r => ih r (hp.2 r)⟩

theorem Calls.ite {C : κ → Prop} {c : Prop} [Decidable c] {p q : Prog κ ρ α} (hp : p.Calls C)
    (hq : q.Calls C) : (if c then p else q).Calls C := by
  split
  · exact hp
  · exact hq

@[simp] theorem runs_pure {a b : α} : Runs does (pure a) x b y ↔ b = a ∧ y = x := by
  constructor
  · intro h
    cases h
    exact ⟨rfl, rfl⟩
  · rintro ⟨rfl, rfl⟩
    exact .done b y

theorem runs_call {c : κ} {next : ρ c → Prog κ ρ α} {a : α} :
    Runs does (.call c next) x a y ↔ ∃ r x', does x c r x' ∧ Runs does (next r) x' a y := by
  constructor
  · intro h
    cases h with
    | call hd hr => exact ⟨_, _, hd, hr⟩
  · rintro ⟨r, x', hd, hr⟩
    exact .call hd hr

@[simp] theorem runs_ask {c : κ} {r : ρ c} : Runs does (ask c) x r y ↔ does x c r y := by
  rw [ask, runs_call]
  constructor
  · rintro ⟨r', x', hd, hr⟩
    cases hr
    exact hd
  · exact fun hd => ⟨r, y, hd, .done r y⟩

theorem follows_nil {p q : Prog κ ρ α} : Follows p [] q ↔ q = p := by
  constructor
  · intro h
    cases h
    rfl
  · rintro rfl
    exact .nil

theorem follows_cons {p q : Prog κ ρ α} {e : (c : κ) × ρ c} {calls : List ((c : κ) × ρ c)} :
    Follows p (e :: calls) q ↔ ∃ next, Follows p calls (.call e.1 next) ∧ q = next e.2 := by
  constructor
  · intro h
    cases h with
    | cons r hf => exact ⟨_, hf, rfl⟩
  · rintro ⟨next, hf, rfl⟩
    exact .cons e.2 hf

/-- **One program after the other.** -/
@[simp] theorem runs_bind {p : Prog κ ρ α} {f : α → Prog κ ρ β} {b : β} :
    Runs does (p >>= f) x b y ↔ ∃ a z, Runs does p x a z ∧ Runs does (f a) z b y := by
  induction p generalizing x with
  | done a =>
    constructor
    · exact fun h => ⟨a, x, .done a x, h⟩
    · rintro ⟨a', z, ha, hf⟩
      cases ha
      exact hf
  | call c next ih =>
    show Runs does (.call c fun r => next r >>= f) x b y ↔ _
    rw [runs_call]
    constructor
    · rintro ⟨r, x', hd, hr⟩
      obtain ⟨a, z, ha, hf⟩ := (ih r).1 hr
      exact ⟨a, z, .call hd ha, hf⟩
    · rintro ⟨a, z, ha, hf⟩
      obtain ⟨r, x', hd, hr⟩ := runs_call.1 ha
      exact ⟨r, x', hd, (ih r).2 ⟨a, z, hr, hf⟩⟩

/-- Two branches that leave the object alone. -/
theorem Runs.ite {c : Prop} [Decidable c] {p q : Prog κ ρ α} {r a b : α}
    (h : Runs does (if c then p else q) x r y) (hp : Runs does p x r y → r = a ∧ y = x)
    (hq : Runs does q x r y → r = b ∧ y = x) : r = (if c then a else b) ∧ y = x := by
  by_cases hc : c
  · rw [if_pos hc] at h ⊢
    exact hp h
  · rw [if_neg hc] at h ⊢
    exact hq h

end Prog

/-! ## Threads -/

variable [DecidableEq ι]

/-- A thread makes a call, and the object serves it at once. -/
inductive Atomic (does : σ → (c : κ) → ρ c → σ → Prop) :
    (ι → Prog κ ρ α) × σ → (ι → Prog κ ρ α) × σ → Prop
  | call {ps : ι → Prog κ ρ α} {x x' : σ} {i : ι} {c : κ} {next : ρ c → Prog κ ρ α} {r : ρ c} :
      ps i = .call c next → does x c r x' → Atomic does (ps, x) (Function.update ps i (next r), x')

variable {does : σ → (c : κ) → ρ c → σ → Prop}

/-- A thread that is alone runs its program. -/
theorem Prog.runs_of_atomic {ps qs : Unit → Prog κ ρ α} {x y : σ} {a : α}
    (h : Relation.ReflTransGen (Atomic does) (ps, x) (qs, y)) (hdone : qs () = .done a) :
    Prog.Runs does (ps ()) x a y := by
  generalize hp : (ps, x) = p at h
  induction h using Relation.ReflTransGen.head_induction_on generalizing ps x with
  | refl =>
    obtain ⟨rfl, rfl⟩ := Prod.mk.inj hp
    exact hdone ▸ .done a _
  | head hstep _ ih =>
    subst hp
    cases hstep with
    | @call _ _ x' i c next r hcall hd =>
      rw [hcall]
      have := ih rfl
      rw [show i = () from rfl, Function.update_self] at this
      exact .call hd this

/-! ## The calls of one thread -/

variable {ο : Type} {ρ' : ο → Type}

/-- The operation that is seen. -/
def Seen.op : Seen ο ρ' → ο
  | .invoked o => o
  | .returned o _ => o

/-- What is seen of calls that return before the next is made, newest
first. -/
def exchanges : List ((o : ο) × ρ' o) → List (Seen ο ρ')
  | [] => []
  | e :: calls => .returned e.1 e.2 :: .invoked e.1 :: exchanges calls

theorem invoked_mem_exchanges {calls : List ((o : ο) × ρ' o)} {o : ο} :
    .invoked o ∈ exchanges calls ↔ o ∈ calls.map Sigma.fst := by
  induction calls with
  | nil => simp [exchanges]
  | cons e calls ih => simp [exchanges, ih]

theorem returned_mem_exchanges {calls : List ((o : ο) × ρ' o)} {e : (o : ο) × ρ' o}
    (h : e ∈ calls) :
    .returned e.1 e.2 ∈ exchanges calls := by
  induction calls with
  | nil => cases h
  | cons e' calls ih =>
    rcases List.mem_cons.1 h with rfl | h
    · exact List.mem_cons_self
    · exact List.mem_cons_of_mem _ (List.mem_cons_of_mem _ (ih h))

/-- A call is made after the earlier ones have returned. -/
theorem pairwise_exchanges (calls : List ((o : ο) × ρ' o)) :
    calls.Pairwise fun e' e =>
      [.invoked e'.1, .returned e.1 e.2].Sublist (exchanges calls) := by
  induction calls with
  | nil => exact .nil
  | cons e' calls ih =>
    refine List.pairwise_cons.2 ⟨fun e he => ?_, ih.imp fun h => (h.cons _).cons _⟩
    exact ((List.singleton_sublist.2 (returned_mem_exchanges he)).cons_cons _).cons _

/-- A list with the members of another, in its order. -/
theorem eq_of_order {l calls : List ((o : ο) × ρ' o)} (hnodup : (l.map Sigma.fst).Nodup)
    (hsub : ∀ e ∈ l, e.1 ∈ calls.map Sigma.fst) (hmem : ∀ e ∈ calls, e ∈ l)
    (horder : calls.Pairwise fun e' e => [e'.1, e.1].Sublist (l.map Sigma.fst)) : l = calls := by
  induction calls generalizing l with
  | nil => exact List.eq_nil_iff_forall_not_mem.2 fun e he => List.not_mem_nil (hsub e he)
  | cons c calls ih =>
    obtain ⟨hfirst, horder⟩ := List.pairwise_cons.1 horder
    cases l with
    | nil => exact absurd (hmem c List.mem_cons_self) List.not_mem_nil
    | cons e l =>
      obtain ⟨hnot, hnodup'⟩ := List.nodup_cons.1 hnodup
      -- the first is the first: all others come after it
      have hfst : e.1 = c.1 := by
        rcases List.mem_cons.1 (hsub e List.mem_cons_self) with heq | he
        · exact heq
        · obtain ⟨e', he', heq⟩ := List.mem_map.1 he
          rcases List.sublist_cons_iff.1 (hfirst e' he') with h | ⟨r, h, -⟩
          · exact absurd (h.subset (heq ▸ by simp)) hnot
          · exact (List.cons_eq_cons.1 h).1.symm
      have hec : c = e := by
        rcases List.mem_cons.1 (hmem c List.mem_cons_self) with heq | hc
        · exact heq
        · exact absurd (hfst ▸ List.mem_map_of_mem (f := Sigma.fst) hc) hnot
      subst hec
      have hne : ∀ e' ∈ calls, e'.1 ≠ c.1 := by
        intro e' he' heq
        exact List.nodup_iff_sublist.1 hnodup c.1 (heq ▸ hfirst e' he')
      refine congrArg _ (ih hnodup' (fun e' he' => ?_) (fun e' he' => ?_) ?_)
      · rcases List.mem_cons.1 (hsub e' (List.mem_cons_of_mem _ he')) with heq | h
        · exact absurd (heq ▸ List.mem_map_of_mem (f := Sigma.fst) he') hnot
        · exact h
      · rcases List.mem_cons.1 (hmem e' (List.mem_cons_of_mem _ he')) with heq | h
        · exact absurd (congrArg Sigma.fst heq) (hne e' he')
        · exact h
      · refine horder.imp_of_mem fun {e₁ e₂} h₁ _ h => ?_
        rcases List.sublist_cons_iff.1 h with h | ⟨r, h, -⟩
        · exact h
        · exact absurd (List.cons_eq_cons.1 h).1 (hne e₁ h₁)

variable {does' : σ → (o : ο) → ρ' o → σ → Prop} {x₀ x : σ} {h : List (Seen ο ρ')}
variable {lin calls : List ((o : ο) × ρ' o)} {owner : ο → ι} {i : ι}

/-- **The calls of a thread are in the order in which it made them**, and
one it waits for may be among them. -/
theorem Linearization.filter_thread (hl : Linearization does' x₀ h lin x)
    (hnodup : (lin.map Sigma.fst).Nodup) {pend : Option ο}
    (hturn : h.filter (fun e => decide (owner e.op = i)) =
      pend.toList.map .invoked ++ exchanges calls) :
    lin.filter (fun e => decide (owner e.1 = i)) = calls ∨
      ∃ o r, pend = some o ∧ lin.filter (fun e => decide (owner e.1 = i)) = ⟨o, r⟩ :: calls := by
  have hmap : (lin.filter fun e => decide (owner e.1 = i)).map Sigma.fst =
      (lin.map Sigma.fst).filter fun o => decide (owner o = i) := by
    rw [List.filter_map]
    rfl
  have hseen : ∀ e, e ∈ pend.toList.map Seen.invoked ++ exchanges calls →
      e ∈ h ∧ owner e.op = i := by
    intro e he
    rw [← hturn] at he
    exact ⟨(List.mem_filter.1 he).1, of_decide_eq_true (List.mem_filter.1 he).2⟩
  have hnodup' : ((lin.filter fun e => decide (owner e.1 = i)).map Sigma.fst).Nodup :=
    hmap ▸ hnodup.filter _
  have hsub : ∀ e ∈ lin.filter (fun e => decide (owner e.1 = i)),
      pend = some e.1 ∨ e.1 ∈ calls.map Sigma.fst := by
    intro e he
    obtain ⟨hlin, hown⟩ := List.mem_filter.1 he
    have hmem : Seen.invoked e.1 ∈ h.filter fun e => decide (owner e.op = i) :=
      List.mem_filter.2 ⟨hl.invoked e.1 (List.mem_map_of_mem hlin), hown⟩
    rw [hturn, List.mem_append] at hmem
    rcases hmem with hmem | hmem
    · left
      simpa using hmem
    · exact .inr (invoked_mem_exchanges.1 hmem)
  have hmem : ∀ e ∈ calls, e ∈ lin.filter fun e => decide (owner e.1 = i) := by
    intro e he
    obtain ⟨hret, hown⟩ := hseen _ (List.mem_append_right _ (returned_mem_exchanges he))
    exact List.mem_filter.2 ⟨hl.returned e.1 e.2 hret, decide_eq_true hown⟩
  -- what the thread made after a return takes effect after it
  have horder : ∀ (o' : ο) (e : (o : ο) × ρ' o), [.invoked o', .returned e.1 e.2].Sublist
      (pend.toList.map Seen.invoked ++ exchanges calls) → o' ∈ lin.map Sigma.fst →
      [o', e.1].Sublist ((lin.filter fun e => decide (owner e.1 = i)).map Sigma.fst) := by
    intro o' e hsub' ho'
    have hh := hturn ▸ hsub'
    have hlt := hl.order e.1 e.2 o' (hh.trans List.filter_sublist) ho'
    have h₁ := (hseen _ (hsub'.subset (List.mem_cons_self))).2
    have h₂ := (hseen _ (hsub'.subset (by simp : Seen.returned e.1 e.2 ∈ _))).2
    have hf := hlt.filter fun o => decide (owner o = i)
    rw [hmap]
    rwa [List.filter_eq_self.2] at hf
    rintro o ho
    rcases List.mem_pair.1 ho with rfl | rfl
    · exact decide_eq_true h₁
    · exact decide_eq_true h₂
  have hpair : calls.Pairwise fun e' e =>
      [e'.1, e.1].Sublist ((lin.filter fun e => decide (owner e.1 = i)).map Sigma.fst) := by
    refine (pairwise_exchanges calls).imp_of_mem fun {e' e} he' _ hsub' => ?_
    exact horder e'.1 e (hsub'.trans (List.sublist_append_right _ _))
      (List.mem_map_of_mem (List.mem_filter.1 (hmem e' he')).1)
  -- the call in progress has taken effect, or not yet
  by_cases hpend : ∃ e ∈ lin.filter (fun e => decide (owner e.1 = i)), pend = some e.1
  · obtain ⟨⟨o, r⟩, he, rfl⟩ := hpend
    right
    refine ⟨o, r, rfl, eq_of_order hnodup' (fun e' he' => ?_) ?_ ?_⟩
    · rcases hsub e' he' with heq | h'
      · exact List.mem_cons.2 (.inl (Option.some.inj heq).symm)
      · exact List.mem_cons_of_mem _ h'
    · exact List.forall_mem_cons.2 ⟨he, hmem⟩
    · refine List.pairwise_cons.2 ⟨fun e' he' => ?_, hpair⟩
      refine horder o e' ?_ (List.mem_map_of_mem (List.mem_filter.1 he).1)
      exact (List.singleton_sublist.2 (returned_mem_exchanges he')).cons_cons _
  · left
    refine eq_of_order hnodup' (fun e' he' => ?_) hmem hpair
    rcases hsub e' he' with heq | h'
    · exact absurd ⟨e', he', heq⟩ hpend
    · exact h'

/-! ## All threads -/

variable {call : ο → κ} {view : (o : ο) → ρ' o → ρ (call o)}

/-- An operation as the program has it. -/
def asked (view : (o : ο) → ρ' o → ρ (call o)) (e : (o : ο) × ρ' o) : (c : κ) × ρ c :=
  ⟨call e.1, view e.1 e.2⟩

/-- Along an order of operations the threads go on one after the other. -/
theorem Sequential.atomic
    (hdoes : ∀ x o r x', does' x o r x' → does x (call o) (view o r) x')
    (hseq : Sequential does' x₀ lin x) {ps qs : ι → Prog κ ρ α}
    (hfollows : ∀ i, (ps i).Follows
      ((lin.filter fun e => decide (owner e.1 = i)).map (asked view)) (qs i)) :
    Relation.ReflTransGen (Atomic does) (ps, x₀) (qs, x) := by
  induction hseq generalizing qs with
  | nil =>
    have heq : qs = ps := funext fun i => Prog.follows_nil.1 (hfollows i)
    exact heq ▸ .refl
  | @cons lin x x' o r _ hd ih =>
    have hlast := hfollows (owner o)
    rw [List.filter_cons_of_pos (by simp), List.map_cons] at hlast
    obtain ⟨next, hf, hq⟩ : ∃ next : ρ (call o) → Prog κ ρ α, (ps (owner o)).Follows
        ((lin.filter fun e : (o : ο) × ρ' o => decide (owner e.1 = owner o)).map (asked view))
        (.call (call o) next) ∧ qs (owner o) = next (view o r)  :=
      Prog.follows_cons.1 hlast
    refine .tail (@ih (Function.update qs (owner o) (.call (call o) next)) fun i => ?_) ?_
    · by_cases hi : i = owner o
      · subst hi
        rwa [Function.update_self]
      · have hother := hfollows i
        rw [List.filter_cons_of_neg (by simpa using Ne.symm hi)] at hother
        rwa [Function.update_of_ne hi]
    · have hstep := Atomic.call (Function.update_self (owner o) (Prog.call (call o) next) qs)
        (hdoes _ _ _ _ hd)
      rwa [Function.update_idem, ← hq, Function.update_eq_self] at hstep

/-- **Linearizable calls are single steps**, to threads that wait for each
call: what they have come to, they come to where each call is served at
once. A thread that waits may be one call further there. -/
theorem Linearizable.atomic (hl : Linearizable does' x₀ h x)
    (hdoes : ∀ x o r x', does' x o r x' → does x (call o) (view o r) x')
    {ps qs : ι → Prog κ ρ α} {pend : ι → Option ο} {calls : ι → List ((o : ο) × ρ' o)}
    (hturn : ∀ i, h.filter (fun e => decide (owner e.op = i)) =
      (pend i).toList.map .invoked ++ exchanges (calls i))
    (hfollows : ∀ i, (ps i).Follows ((calls i).map (asked view)) (qs i))
    (hwaits : ∀ i o, pend i = some o → ∃ next, qs i = .call (call o) next) :
    ∃ qs', Relation.ReflTransGen (Atomic does) (ps, x₀) (qs', x) ∧
      ∀ i, qs' i = qs i ∨ (pend i).isSome ∧ ∃ c next r, qs i = .call c next ∧ qs' i = next r := by
  obtain ⟨lin, hnodup, hlin⟩ := hl
  have hone : ∀ i, ∃ q, (ps i).Follows
      ((lin.filter fun e => decide (owner e.1 = i)).map (asked view)) q ∧
      (q = qs i ∨ (pend i).isSome ∧ ∃ c next r, qs i = .call c next ∧ q = next r) := by
    intro i
    rcases hlin.filter_thread hnodup (hturn i) with heq | ⟨o, r, hpend, heq⟩
    · exact ⟨qs i, heq ▸ hfollows i, .inl rfl⟩
    · obtain ⟨next, hq⟩ := hwaits i o hpend
      refine ⟨next (view o r), ?_, .inr ⟨by rw [hpend]; rfl, call o, next, view o r, hq, rfl⟩⟩
      rw [heq, List.map_cons]
      exact .cons _ (hq ▸ hfollows i)
  choose qs' hqs' hnear using hone
  exact ⟨qs', hlin.sequential.atomic hdoes hqs', hnear⟩

end Common
