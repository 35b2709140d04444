import Yfs.Common.Cell
import Yfs.Files.Interleaving

/-!
# Updates of one extent

What clients at work on one extent do to it, whatever they make of its
content. The extent is a value that they read and put back (`Cell`), and
as long as no call is disturbed its content is what the calls that
succeeded make one after the other of the first (`Going`). `Workload` is
what is used of the calls: `Workload.along_iff` says that then nothing is
lost exactly where no call is disturbed.
-/

namespace Yfs

open Common
open Cell (replay)

namespace ClientOp

/-- What the call stands for is in the content: a name created is recorded
once, and the bytes written are where they were written to. -/
def Shown (content : List UInt8) : ClientOp → Prop
  | create _ _ name => ((recorded content).map DirEntry.name).count name = 1
  | write _ buf size off =>
    (content.drop (toSize off)).take (toSize size) = buf.take (toSize size)

/-- The byte `i` is in the range of the write. -/
def Covers (i : ℕ) : ClientOp → Prop
  | create _ _ _ => False
  | write _ _ size off => toSize off ≤ i ∧ i < toSize off + toSize size

/-- Two calls that have nothing in common: two names and two ids, or two
disjoint ranges. -/
def Apart : ClientOp → ClientOp → Prop
  | create _ inum name, create _ inum' name' => name ≠ name' ∧ inum ≠ inum'
  | write fileID buf size off, write fileID' buf' size' off' =>
    ∀ i, (write fileID buf size off).Covers i → ¬ (write fileID' buf' size' off').Covers i
  | _, _ => False

/-- A name to create is proper, and not in the directory yet. -/
def New (content : List UInt8) : ClientOp → Prop
  | create _ _ name => colon ∉ name ∧ name ∉ (recorded content).map DirEntry.name
  | write _ _ _ _ => True

/-- A `create` in the directory. -/
def CreatesIn (parentID : UInt64) : ClientOp → Prop
  | create id _ _ => id = parentID
  | write _ _ _ _ => False

/-- A `write` to the file of as many bytes as it says, in range for a file
of length `len`. -/
def WritesIn (fileID : UInt64) (len : ℕ) : ClientOp → Prop
  | create _ _ _ => False
  | write id buf size off =>
    id = fileID ∧ 0 ≤ off ∧ 0 ≤ size ∧ toSize off + toSize size ≤ len ∧ toSize size ≤ buf.length

/-- What the call makes of a content. -/
def apply (op : ClientOp) (content : List UInt8) : List UInt8 :=
  (op.putsBack content).getD content

theorem Apart.symm {op op' : ClientOp} (h : Apart op op') : Apart op' op := by
  cases op with
  | create =>
    cases op' with
    | create => exact ⟨h.1.symm, h.2.symm⟩
    | write => exact h
  | write =>
    cases op' with
    | create => exact h
    | write => exact fun i hi hi' => h i hi' hi

/-- Two writes that are apart do not meet at a byte. -/
theorem Apart.not_both {op op' : ClientOp} (h : Apart op op') {i : ℕ} (hi : op.Covers i) :
    ¬ op'.Covers i := by
  cases op with
  | create => exact absurd hi id
  | write =>
    cases op' with
    | create => exact id
    | write => exact h i hi

end ClientOp

/-- The content that a call has got. -/
def OpPhase.content : OpPhase → Option (List UInt8)
  | .start => none
  | .got content => some content
  | .made content => some content

variable {ι : Type*} [DecidableEq ι]

namespace Clients

/-- The call whose next request is its last, with the content it got. -/
def putting (p : Clients ι) (i : ι) : Option (ClientOp × List UInt8) :=
  match (p.clients i).todo, (p.clients i).phase with
  | op :: _, .got content => if op.makes = none then some (op, content) else none
  | op :: _, .made content => some (op, content)
  | _, _ => none

/-- The clients begin. Their calls are of one kind, and any two of them
have nothing in common. -/
structure Begins (Kind : ClientOp → Prop) (p : Clients ι) : Prop where
  done : p.done = []
  start : ∀ i, (p.clients i).phase = .start
  kind : ∀ i, ∀ op ∈ (p.clients i).todo, Kind op
  own : ∀ i, (p.clients i).todo.Pairwise ClientOp.Apart
  others : ∀ i j, i ≠ j → ∀ op ∈ (p.clients i).todo, ∀ op' ∈ (p.clients j).todo, op.Apart op'

end Clients

/-- Clients begin to create in one directory. -/
def Creating (p : Clients ι) : Prop :=
  ∃ parentID es, YfsClient.isdir parentID = true ∧
    p.server.get parentID = (.ok, dirString es) ∧ (∀ e ∈ es, colon ∉ e.name) ∧
    p.Begins (ClientOp.CreatesIn parentID)

/-- Clients begin to write to one file. -/
def Writing (p : Clients ι) : Prop :=
  ∃ fileID content, p.server.get fileID = (.ok, content) ∧
    p.Begins (ClientOp.WritesIn fileID content.length)

/-- Nothing of what succeeded is lost. -/
def NoLostUpdate (p : Clients ι) : Prop :=
  ∀ op ∈ p.succeeded, op.Shown (p.server.get op.target).2

/-- A call that is about to succeed finds the content that it got, and
what it is to create is new there. -/
def Undisturbed (p : Clients ι) (a : ι × UInt32) : Prop :=
  ∀ op content c, p.putting a.1 = some (op, content) → op.putsBack content = some c →
    c.length ≤ maxextent → p.server.get op.target = (.ok, content) ∧ op.New content

/-! ## One request -/

namespace Clients

/-- What a request of the client `i` does. -/
inductive Moved (p : Clients ι) (i : ι) : Clients ι → Prop
  | got {op : ClientOp} {rest : List ClientOp} {content : List UInt8}
      (htodo : (p.clients i).todo = op :: rest) (hget : p.server.get op.target = (.ok, content)) :
      Moved p i (p.goto p.server i (.got content))
  | made {op : ClientOp} {rest : List ClientOp} {content : List UInt8} {inum : UInt64}
      (now : UInt32) (htodo : (p.clients i).todo = op :: rest)
      (hphase : (p.clients i).phase = .got content) (hmakes : op.makes = some inum) :
      Moved p i (p.goto (p.server.put inum [] now).1 i (.made content))
  /-- The call fails. Nothing is put. -/
  | failed {op : ClientOp} {rest : List ClientOp} (htodo : (p.clients i).todo = op :: rest) :
      Moved p i (p.finish p.server i op rest .ioerr)
  | crashed : Moved p i (p.crash i)
  | put {op : ClientOp} {rest : List ClientOp} {content c : List UInt8} (now : UInt32)
      (htodo : (p.clients i).todo = op :: rest) (hput : p.putting i = some (op, content))
      (hback : op.putsBack content = some c) (hlen : c.length ≤ maxextent) :
      Moved p i (p.finish (p.server.put op.target c now).1 i op rest .ok)

variable {p p' : Clients ι} {i : ι} {a : ι × UInt32}

/-- The last request succeeds exactly where what is put is not too long. -/
theorem putBack_eq {op : ClientOp} {content c : List UInt8} (rest : List ClientOp) (now : UInt32)
    (hback : op.putsBack content = some c) :
    p.putBack i op rest content now =
      if c.length ≤ maxextent then p.finish (p.server.put op.target c now).1 i op rest .ok
      else p.finish p.server i op rest .ioerr := by
  rw [putBack, hback]
  dsimp only
  rw [ExtentServer.ite_put_ok]
  by_cases hlen : c.length ≤ maxextent
  · rw [if_pos hlen, if_pos hlen]
  · rw [if_neg hlen, if_neg hlen, ExtentServer.put, if_pos (Nat.lt_of_not_le hlen)]

/-- The last request of a call ends it, in one of three ways. -/
theorem moved_of_putBack {op : ClientOp} {rest : List ClientOp} {content : List UInt8}
    (htodo : (p.clients i).todo = op :: rest) (hput : p.putting i = some (op, content))
    (now : UInt32) : Moved p i (p.putBack i op rest content now) := by
  cases hback : op.putsBack content with
  | none =>
    rw [putBack, hback]
    exact .crashed
  | some c =>
    rw [putBack_eq rest now hback]
    split
    · rename_i hlen
      exact .put now htodo hput hback hlen
    · exact .failed htodo

/-- **One request** does one of these. -/
theorem moved_of_step (h : p.step a = some p') : Moved p a.1 p' := by
  obtain ⟨i, now⟩ := a
  obtain ⟨todo, phase, hc⟩ : ∃ todo phase, p.clients i = ⟨todo, phase⟩ := ⟨_, _, rfl⟩
  cases todo with
  | nil =>
    rw [step, hc] at h
    cases h
  | cons op rest =>
    have htodo : (p.clients i).todo = op :: rest := by rw [hc]
    cases phase with
    | start =>
      rw [step_start hc] at h
      split at h
      · obtain rfl := Option.some.inj h
        exact .failed htodo
      · rename_i hok
        obtain rfl := Option.some.inj h
        exact .got htodo (Prod.ext (not_not.1 hok) rfl)
    | got content =>
      cases hm : op.makes with
      | none =>
        rw [step_got hc hm] at h
        obtain rfl := Option.some.inj h
        refine moved_of_putBack htodo ?_ now
        simp only [putting, hc, hm, if_true]
      | some inum =>
        rw [step_makes hc hm] at h
        obtain rfl := Option.some.inj h
        exact .made now htodo (by rw [hc]) hm
    | made content =>
      rw [step_made hc] at h
      obtain rfl := Option.some.inj h
      refine moved_of_putBack htodo ?_ now
      simp only [putting, hc]

/-- The last request of a call is served. -/
theorem step_of_putting {op : ClientOp} {content : List UInt8} (now : UInt32)
    (hput : p.putting i = some (op, content)) :
    (p.clients i).phase.content = some content ∧ ∃ rest, (p.clients i).todo = op :: rest ∧
      p.step (i, now) = some (p.putBack i op rest content now) := by
  obtain ⟨todo, phase, hc⟩ : ∃ todo phase, p.clients i = ⟨todo, phase⟩ := ⟨_, _, rfl⟩
  rw [putting, hc] at hput
  cases todo with
  | nil => cases hput
  | cons op' rest =>
    cases phase with
    | start => cases hput
    | got content' =>
      dsimp only at hput
      split at hput
      · rename_i hm
        cases hput
        exact ⟨by rw [hc]; rfl, rest, by rw [hc], step_got hc hm now⟩
      · cases hput
    | made content' =>
      cases hput
      exact ⟨by rw [hc]; rfl, rest, by rw [hc], step_made hc now⟩

/-! ## The calls that are left -/

/-- The calls still to make are of one kind, and no two calls, made or to
make, have anything in common. -/
structure Spread (Kind : ClientOp → Prop) (p : Clients ι) : Prop where
  kind : ∀ i, ∀ op ∈ (p.clients i).todo, Kind op
  own : ∀ i, (p.clients i).todo.Pairwise ClientOp.Apart
  others : ∀ i j, i ≠ j → ∀ op ∈ (p.clients i).todo, ∀ op' ∈ (p.clients j).todo, op.Apart op'
  apart : p.succeeded.Pairwise ClientOp.Apart
  next : ∀ w ∈ p.succeeded, ∀ i, ∀ op ∈ (p.clients i).todo, w.Apart op

variable {Kind : ClientOp → Prop}

omit [DecidableEq ι] in
/-- In the beginning nothing is done, and what is to be done is apart. -/
theorem Begins.spread (h : p.Begins Kind) : p.Spread Kind := by
  have hnil : p.succeeded = [] := by rw [succeeded, h.done, List.filterMap_nil]
  refine ⟨h.kind, h.own, h.others, ?_, ?_⟩
  · rw [hnil]
    exact List.Pairwise.nil
  · rw [hnil]
    exact fun w hw => absurd hw List.not_mem_nil

omit [DecidableEq ι] in
/-- Fewer calls are left. -/
theorem Spread.mono (h : p.Spread Kind) (hdone : p'.succeeded = p.succeeded)
    (htodo : ∀ j, (p'.clients j).todo.Sublist (p.clients j).todo) : p'.Spread Kind where
  kind j op hop := h.kind j op ((htodo j).subset hop)
  own j := (h.own j).sublist (htodo j)
  others j k hjk op hop op' hop' :=
    h.others j k hjk op ((htodo j).subset hop) op' ((htodo k).subset hop')
  apart := hdone ▸ h.apart
  next w hw j op hop := h.next w (hdone ▸ hw) j op ((htodo j).subset hop)

/-- What a client does leaves the calls of the others, and no more of its
own. -/
theorem todo_update {x : Client} (hx : x.todo.Sublist (p.clients i).todo) (j : ι) :
    (Function.update p.clients i x j).todo.Sublist (p.clients j).todo := by
  by_cases hji : j = i
  · subst hji
    rwa [Function.update_self]
  · rw [Function.update_of_ne hji]

theorem succeeded_failed (s : ExtentServer) (i : ι) (op : ClientOp) (rest : List ClientOp) :
    (p.finish s i op rest .ioerr).succeeded = p.succeeded := rfl

theorem succeeded_put (s : ExtentServer) (i : ι) (op : ClientOp) (rest : List ClientOp) :
    (p.finish s i op rest .ok).succeeded = op :: p.succeeded := rfl

/-- A call that succeeds has nothing in common with those left. -/
theorem Spread.put {op : ClientOp} {rest : List ClientOp} (h : p.Spread Kind)
    (htodo : (p.clients i).todo = op :: rest) (s : ExtentServer) :
    (p.finish s i op rest .ok).Spread Kind := by
  have hop : op ∈ (p.clients i).todo := htodo ▸ List.mem_cons_self
  have hless : ∀ j, ((p.finish s i op rest .ok).clients j).todo.Sublist (p.clients j).todo :=
    todo_update (htodo ▸ List.sublist_cons_self op rest)
  have hleft : (p.finish s i op rest .ioerr).Spread Kind :=
    h.mono (succeeded_failed s i op rest) hless
  refine ⟨hleft.kind, hleft.own, hleft.others, ?_, ?_⟩
  · rw [succeeded_put]
    exact List.pairwise_cons.2 ⟨fun w hw => (h.next w hw i op hop).symm, h.apart⟩
  · rw [succeeded_put]
    intro w hw j op' hop'
    rcases List.mem_cons.1 hw with rfl | hw
    · by_cases hji : j = i
      · subst hji
        simp only [finish, Function.update_self] at hop'
        have hown := h.own j
        rw [htodo] at hown
        exact List.rel_of_pairwise_cons hown hop'
      · exact h.others i j (Ne.symm hji) w hop op' ((hless j).subset hop')
    · exact h.next w hw j op' ((hless j).subset hop')

/-! ## The extent as a value that is read and put back -/

/-- The content of an extent, what the clients got of it and the calls
that succeeded. -/
def cell (p : Clients ι) (id : UInt64) : Cell ι (List UInt8) ClientOp :=
  ⟨(p.server.get id).2, fun i => (p.clients i).phase.content, p.succeeded⟩

/-- What the clients hold, after one of them has moved. -/
theorem held_update (p : Clients ι) (i : ι) (x : Client) :
    (fun j => (Function.update p.clients i x j).phase.content) =
      Function.update (fun j => (p.clients j).phase.content) i x.phase.content :=
  funext fun j => Function.apply_update (fun _ (c : Client) => c.phase.content) p.clients i x j

variable {id : UInt64} {op : ClientOp} {content c : List UInt8}

/-- A `get` is a read of the cell. -/
theorem cell_got (hget : p.server.get id = (.ok, content)) :
    (p.goto p.server i (.got content)).cell id = (p.cell id).read i := by
  rw [cell, Cell.read, cell, goto]
  dsimp only
  rw [held_update, hget]
  rfl

/-- A `put` elsewhere is not seen. -/
theorem get_put_of_ne {s : ExtentServer} {inum : UInt64} (hne : inum ≠ id) (buf : List UInt8)
    (now : UInt32) : (s.put inum buf now).1.get id = s.get id := by
  rw [ExtentServer.put]
  split
  · rfl
  · simp only [ExtentServer.get, Function.update_of_ne (Ne.symm hne)]

/-- The extent of a new file is not the one that is watched. -/
theorem cell_made {inum : UInt64} (hphase : (p.clients i).phase = .got content)
    (hne : inum ≠ id) (now : UInt32) :
    (p.goto (p.server.put inum [] now).1 i (.made content)).cell id = p.cell id := by
  have hheld : (p.clients i).phase.content = some content := by rw [hphase]; rfl
  rw [cell, cell, goto]
  dsimp only
  rw [held_update, get_put_of_ne hne, OpPhase.content, ← hheld]
  congr 1
  exact Function.update_eq_self i fun j => (p.clients j).phase.content

theorem cell_failed (rest : List ClientOp) :
    (p.finish p.server i op rest .ioerr).cell id = (p.cell id).drop i := by
  rw [cell, Cell.drop, cell, succeeded_failed, finish]
  dsimp only
  rw [held_update]
  rfl

theorem cell_crash : (p.crash i).cell id = (p.cell id).drop i := by
  rw [cell, Cell.drop, cell, crash]
  dsimp only
  rw [held_update]
  rfl

/-- A `put` is a commit of what was read. -/
theorem cell_put (rest : List ClientOp) (hback : op.putsBack content = some c)
    (hlen : c.length ≤ maxextent) (now : UInt32) :
    (p.finish (p.server.put op.target c now).1 i op rest .ok).cell op.target =
      (p.cell op.target).commit ClientOp.apply i op content := by
  rw [cell, Cell.commit, cell, succeeded_put, finish]
  dsimp only
  rw [held_update, ExtentServer.get_put_self now hlen, ClientOp.apply, hback]
  rfl

end Clients

/-! ## Every interleaving -/

/-- What is used of calls on the extent `id`, whose content was `v₀`:
`Kind` holds of all of them, and `Good` of those that succeed undisturbed.
A record of such calls shows each of them; and a call that puts back what
it made of an older content, or that is not new, shows in what is lost. -/
structure Workload (id : UInt64) (v₀ : List UInt8) (Kind Good : ClientOp → Prop) : Prop where
  target : ∀ op, Kind op → op.target = id
  makes : ∀ op inum, Kind op → op.makes = some inum → inum ≠ id
  good : ∀ (op : ClientOp) (ws : List ClientOp) (c : List UInt8), Kind op →
    (∀ w ∈ ws, Kind w ∧ Good w) → op.putsBack (replay ClientOp.apply v₀ ws) = some c →
    c.length ≤ maxextent → op.New (replay ClientOp.apply v₀ ws) → Good op
  shown : ∀ ws : List ClientOp, (∀ w ∈ ws, Kind w ∧ Good w) → ws.Pairwise ClientOp.Apart →
    ∀ w ∈ ws, w.Shown (replay ClientOp.apply v₀ ws)
  fresh : ∀ (op : ClientOp) (ws us : List ClientOp) (c : List UInt8), Kind op →
    (∀ w ∈ ws, Kind w ∧ Good w) → ws.Pairwise ClientOp.Apart → (∀ w ∈ ws, w.Apart op) →
    us <:+ ws → op.putsBack (replay ClientOp.apply v₀ us) = some c → c.length ≤ maxextent →
    (∀ w ∈ op :: ws, w.Shown c) →
    replay ClientOp.apply v₀ us = replay ClientOp.apply v₀ ws ∧
      op.New (replay ClientOp.apply v₀ us)

section Workload

variable {id : UInt64} {v₀ : List UInt8} {Kind Good : ClientOp → Prop}
variable {p p' : Clients ι} {a : ι × UInt32}

/-- The invariant: the content is what the calls that succeeded make one
after the other of the first. -/
structure Going (id : UInt64) (v₀ : List UInt8) (Kind Good : ClientOp → Prop) (p : Clients ι) :
    Prop where
  ok : (p.server.get id).1 = .ok
  serial : (p.cell id).Serial ClientOp.apply v₀
  good : ∀ w ∈ p.succeeded, Kind w ∧ Good w
  spread : p.Spread Kind

omit [DecidableEq ι] in
theorem going_of_begins (hget : p.server.get id = (.ok, v₀)) (h : p.Begins Kind) :
    Going id v₀ Kind Good p := by
  have hnil : p.succeeded = [] := by rw [Clients.succeeded, h.done, List.filterMap_nil]
  refine ⟨by rw [hget], ⟨?_, fun i v hv => ?_⟩, ?_, h.spread⟩
  · simp only [Clients.cell, hget, hnil, Cell.replay, List.foldr_nil]
  · simp only [Clients.cell, h.start i, OpPhase.content] at hv
    cases hv
  · rw [hnil]
    exact fun w hw => absurd hw List.not_mem_nil

omit [DecidableEq ι] in
/-- What the cell says of its serial runs, said of the extent. -/
theorem Going.noLostUpdate (hW : Workload id v₀ Kind Good) (h : Going id v₀ Kind Good p) :
    NoLostUpdate p := by
  intro op hop
  have hvalue : (p.server.get id).2 = replay ClientOp.apply v₀ p.succeeded := h.serial.value
  rw [hW.target op (h.good op hop).1, hvalue]
  exact hW.shown p.succeeded h.good h.spread.apart op hop

/-- **A request** of a call that is not disturbed keeps the invariant. -/
theorem Going.step (hW : Workload id v₀ Kind Good) (h : Going id v₀ Kind Good p)
    (hU : Undisturbed p a) (hs : p.step a = some p') : Going id v₀ Kind Good p' := by
  cases Clients.moved_of_step hs with
  | @got op rest content htodo hget =>
    have htarget : op.target = id :=
      hW.target op (h.spread.kind a.1 op (htodo ▸ List.mem_cons_self))
    rw [htarget] at hget
    refine ⟨h.ok, ?_, h.good, h.spread.mono rfl (Clients.todo_update (List.Sublist.refl _))⟩
    rw [Clients.cell_got hget]
    exact h.serial.read a.1
  | @made op rest content inum now htodo hphase hmakes =>
    have hne : inum ≠ id :=
      hW.makes op inum (h.spread.kind a.1 op (htodo ▸ List.mem_cons_self)) hmakes
    refine ⟨?_, ?_, h.good, h.spread.mono rfl (Clients.todo_update (List.Sublist.refl _))⟩
    · rw [Clients.goto, Clients.get_put_of_ne hne]
      exact h.ok
    · rw [Clients.cell_made hphase hne]
      exact h.serial
  | @failed op rest htodo =>
    refine ⟨h.ok, ?_, h.good, h.spread.mono rfl
      (Clients.todo_update (htodo ▸ List.sublist_cons_self op rest))⟩
    rw [Clients.cell_failed]
    exact h.serial.drop a.1
  | crashed =>
    refine ⟨h.ok, ?_, h.good, h.spread.mono rfl (Clients.todo_update (List.nil_sublist _))⟩
    rw [Clients.cell_crash]
    exact h.serial.drop a.1
  | @put op rest content c now htodo hput hback hlen =>
    have hkind : Kind op := h.spread.kind a.1 op (htodo ▸ List.mem_cons_self)
    obtain rfl := hW.target op hkind
    obtain ⟨hget, hnew⟩ := hU op content c hput hback hlen
    -- the call got the content that is there
    have hcell : (p.cell op.target).value = content := by rw [Clients.cell, hget]
    have hvalue : content = replay ClientOp.apply v₀ p.succeeded := hcell.symm.trans h.serial.value
    refine ⟨?_, ?_, ?_, h.spread.put htodo _⟩
    · rw [Clients.finish, ExtentServer.get_put_self now hlen]
    · rw [Clients.cell_put rest hback hlen, ← hcell]
      exact h.serial.commit a.1 op
    · rw [Clients.succeeded_put]
      intro w hw
      rcases List.mem_cons.1 hw with rfl | hw
      · rw [hvalue] at hback hnew
        exact ⟨hkind, hW.good w p.succeeded c hkind h.good hback hlen hnew⟩
      · exact h.good w hw

/-- A request after which nothing is lost was of a call not disturbed. -/
theorem Going.undisturbed (hW : Workload id v₀ Kind Good) (h : Going id v₀ Kind Good p)
    (hnext : ∀ p', p.step a = some p' → NoLostUpdate p') : Undisturbed p a := by
  intro op content c hput hback hlen
  obtain ⟨hheld, rest, htodo, hstep⟩ := Clients.step_of_putting a.2 hput
  have hop : op ∈ (p.clients a.1).todo := htodo ▸ List.mem_cons_self
  have hkind := h.spread.kind a.1 op hop
  obtain rfl := hW.target op hkind
  obtain ⟨us, hus, rfl⟩ := h.serial.held a.1 content hheld
  rw [Clients.putBack_eq rest a.2 hback, if_pos hlen] at hstep
  have hshown : ∀ w ∈ op :: p.succeeded, w.Shown c := by
    intro w hw
    have htarget : w.target = op.target := by
      rcases List.mem_cons.1 hw with rfl | hw
      · rfl
      · exact hW.target w (h.good w hw).1
    have hw' := hnext _ hstep w hw
    rwa [htarget, Clients.finish, ExtentServer.get_put_self a.2 hlen] at hw'
  obtain ⟨heq, hnew⟩ := hW.fresh op p.succeeded us c hkind h.good h.spread.apart
    (fun w hw => h.spread.next w hw a.1 op hop) hus hback hlen hshown
  refine ⟨Prod.ext h.ok ?_, hnew⟩
  rw [heq]
  exact h.serial.value

/-- Nothing is lost in a run exactly where no call is disturbed. -/
theorem Workload.along_iff (hW : Workload id v₀ Kind Good)
    (hget : p.server.get id = (.ok, v₀)) (h : p.Begins Kind) (as : List (ι × UInt32)) :
    Along Clients.step NoLostUpdate p as ↔ Steps Clients.step Undisturbed p as :=
  along_iff_steps (fun _ h => h.noLostUpdate hW) (fun _ _ _ h hU hs => h.step hW hU hs)
    (fun _ _ h hnext => h.undisturbed hW hnext) (going_of_begins hget h)

end Workload

end Yfs
