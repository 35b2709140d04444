import Yfs.Files.Entries
import Yfs.Files.LostUpdates

/-!
# Directories under any interleaving

Clients that create files and write to them at the same time, without the
lock they are given, lose entries (`LostUpdates`). They do no more harm
than that. However their requests come to be served, whatever calls fail
and whatever clients break off: every directory stays the text of entries
with proper names that name extents, the entries it had stay where they
were, and those after them are of calls that succeeded, in the order in
which they did, the last one among them (`along_intact`).
-/

namespace Yfs

open Common
open Cell (replay)

/-- A call that FUSE makes for a file: a new one in a directory, or one
that is written to. -/
def ClientOp.ForFile : ClientOp → Prop
  | .create parentID inum name =>
    YfsClient.isdir parentID = true ∧ YfsClient.isfile inum = true ∧ colon ∉ name
  | .write fileID _ _ _ => YfsClient.isfile fileID = true

/-- The content that the call of a client got, if it is of the extent. -/
def Client.held (x : Client) (id : UInt64) : Option (List UInt8) :=
  match x.todo with
  | [] => none
  | op :: _ => if op.target = id then x.phase.content else none

variable {ι : Type*}

namespace Clients

/-- The calls on an extent that succeeded, newest first. -/
def succeededOn (p : Clients ι) (id : UInt64) : List ClientOp :=
  p.succeeded.filter fun op => decide (op.target = id)

/-- What is left of the directories of `p₀`. -/
structure Intact (p₀ p : Clients ι) : Prop where
  tidy : Tidy p.server
  kept : ∀ id, (p₀.server.extents id).isSome → (p.server.extents id).isSome
  dirs : ∀ id es, YfsClient.isdir id = true → p₀.server.get id = (.ok, dirString es) →
    ∃ ws, ws.Sublist (p.succeededOn id) ∧ ws.head? = (p.succeededOn id).head? ∧
      p.server.get id = (.ok, dirString (es ++ entered ws))

/-- A directory, with what the clients got of it. -/
def dirCell (p : Clients ι) (id : UInt64) : Cell ι (List UInt8) ClientOp :=
  ⟨(p.server.get id).2, fun i => (p.clients i).held id, p.succeededOn id⟩

/-! ## One directory -/

section

variable [DecidableEq ι] {p : Clients ι} {i : ι} {id : UInt64} {op : ClientOp}
variable {rest : List ClientOp} {content c : List UInt8}

theorem held_of_update (p : Clients ι) (i : ι) (x : Client) (id : UInt64) :
    (fun j => (Function.update p.clients i x j).held id) =
      Function.update (fun j => (p.clients j).held id) i (x.held id) :=
  funext fun j => Function.apply_update (fun _ (c : Client) => c.held id) p.clients i x j

theorem held_start (todo : List ClientOp) (id : UInt64) :
    (Client.mk todo .start).held id = none := by
  cases todo with
  | nil => rfl
  | cons op rest => exact ite_self none

/-- A call gets the directory, or another extent. -/
theorem dirCell_got (htodo : (p.clients i).todo = op :: rest)
    (hget : p.server.get op.target = (.ok, content)) (id : UInt64) :
    (p.goto p.server i (.got content)).dirCell id =
      if op.target = id then (p.dirCell id).read i else (p.dirCell id).drop i := by
  rw [dirCell, goto]
  dsimp only
  rw [held_of_update, htodo]
  by_cases hid : op.target = id
  · rw [if_pos hid, Cell.read, dirCell]
    subst hid
    simp only [Client.held, if_true, hget]
    rfl
  · rw [if_neg hid, Cell.drop, dirCell]
    simp only [Client.held, hid, if_false]
    rfl

/-- A new file is put. -/
theorem dirCell_made {inum : UInt64} (htodo : (p.clients i).todo = op :: rest)
    (hphase : (p.clients i).phase = .got content) (hne : inum ≠ id) (now : UInt32) :
    (p.goto (p.server.put inum [] now).1 i (.made content)).dirCell id = p.dirCell id := by
  have hheld : (Client.mk (p.clients i).todo (.made content)).held id = (p.clients i).held id := by
    rw [Client.held, Client.held, htodo, hphase]
    rfl
  rw [dirCell, dirCell, goto]
  dsimp only
  rw [held_of_update, hheld, get_put_of_ne hne]
  congr 1
  exact Function.update_eq_self i fun j => (p.clients j).held id

theorem dirCell_failed (op : ClientOp) (rest : List ClientOp) (id : UInt64) :
    (p.finish p.server i op rest .ioerr).dirCell id = (p.dirCell id).drop i := by
  rw [dirCell, finish]
  dsimp only
  rw [held_of_update, held_start]
  rfl

theorem dirCell_crash (p : Clients ι) (i : ι) (id : UInt64) :
    (p.crash i).dirCell id = (p.dirCell id).drop i := by
  rw [dirCell, crash]
  dsimp only
  rw [held_of_update]
  rfl

/-- A call puts the directory back, or another extent. -/
theorem dirCell_put (rest : List ClientOp) (hback : op.putsBack content = some c)
    (hlen : c.length ≤ maxextent) (now : UInt32) (id : UInt64) :
    (p.finish (p.server.put op.target c now).1 i op rest .ok).dirCell id =
      if op.target = id then (p.dirCell id).commit ClientOp.apply i op content
      else (p.dirCell id).drop i := by
  have hdone : (p.finish (p.server.put op.target c now).1 i op rest .ok).succeededOn id =
      if op.target = id then op :: p.succeededOn id else p.succeededOn id := by
    rw [succeededOn, succeeded_put, List.filter_cons]
    simp only [decide_eq_true_eq]
    rfl
  rw [dirCell, hdone, finish]
  dsimp only
  rw [held_of_update, held_start]
  by_cases hid : op.target = id
  · subst hid
    rw [if_pos rfl, if_pos rfl, ExtentServer.get_put_self now hlen, Cell.commit, ClientOp.apply,
      hback]
    rfl
  · rw [if_neg hid, if_neg hid, get_put_of_ne hid]
    rfl

end

/-! ## All of them -/

/-- A client whose calls are for files, with what it got and made so far. -/
structure Ready (s : ExtentServer) (x : Client) : Prop where
  todo : ∀ op ∈ x.todo, op.ForFile
  got : ∀ op rest content, x.todo = op :: rest → x.phase.content = some content →
    (s.extents op.target).isSome
  /-- The extent of a file is there before its entry. -/
  made : ∀ op rest content inum, x.todo = op :: rest → x.phase = .made content →
    op.makes = some inum → (s.extents inum).isSome

theorem Ready.mono {s s' : ExtentServer} {x : Client} (h : Ready s x)
    (hgrows : ∀ id, (s.extents id).isSome → (s'.extents id).isSome) : Ready s' x where
  todo := h.todo
  got op rest content htodo hphase := hgrows _ (h.got op rest content htodo hphase)
  made op rest content inum htodo hphase hmakes :=
    hgrows _ (h.made op rest content inum htodo hphase hmakes)

/-- A client between two calls. -/
theorem ready_start {s : ExtentServer} {todo : List ClientOp} (h : ∀ op ∈ todo, op.ForFile) :
    Ready s ⟨todo, .start⟩ where
  todo := h
  got op rest content _ hphase := by cases hphase
  made op rest content inum _ hphase := by cases hphase

/-- The invariant. -/
structure Steady (p₀ p : Clients ι) : Prop where
  clients : ∀ i, Ready p.server (p.clients i)
  succeeded : ∀ op ∈ p.succeeded, op.ForFile ∧
    ∀ inum, op.makes = some inum → (p.server.extents inum).isSome
  kept : ∀ id, (p₀.server.extents id).isSome → (p.server.extents id).isSome
  /-- There is no new directory. -/
  dirs : ∀ id, YfsClient.isdir id = true → (p.server.extents id).isSome →
    (p₀.server.extents id).isSome
  branched : ∀ id es, YfsClient.isdir id = true → p₀.server.get id = (.ok, dirString es) →
    (p.dirCell id).Branched ClientOp.apply (dirString es)

theorem mem_entered {ws : List ClientOp} {d : DirEntry} (h : d ∈ entered ws) :
    ∃ id, .create id d.inum d.name ∈ ws := by
  induction ws with
  | nil => exact absurd h List.not_mem_nil
  | cons w ws ih =>
    cases w with
    | create id inum name =>
      rw [entered, List.mem_append, List.mem_singleton] at h
      rcases h with h | rfl
      · obtain ⟨id', hid'⟩ := ih h
        exact ⟨id', List.mem_cons_of_mem _ hid'⟩
      · exact ⟨id, List.mem_cons_self⟩
    | write =>
      obtain ⟨id', hid'⟩ := ih h
      exact ⟨id', List.mem_cons_of_mem _ hid'⟩

/-- A call on a directory creates a file in it. -/
theorem createsIn_of_forFile {op : ClientOp} {id : UInt64} (h : op.ForFile)
    (htarget : op.target = id) (hdir : YfsClient.isdir id = true) : op.CreatesIn id := by
  cases op with
  | create => exact htarget
  | write fileID buf size off =>
    obtain rfl : fileID = id := htarget
    rw [YfsClient.isdir, (h : YfsClient.isfile fileID = true)] at hdir
    cases hdir

theorem Steady.intact {p₀ p : Clients ι} (ht : Tidy p₀.server) (h : Steady p₀ p) :
    Intact p₀ p := by
  have hdirs : ∀ id es, YfsClient.isdir id = true → p₀.server.get id = (.ok, dirString es) →
      ∃ ws, ws.Sublist (p.succeededOn id) ∧ ws.head? = (p.succeededOn id).head? ∧
        p.server.get id = (.ok, dirString (es ++ entered ws)) := by
    intro id es hdir hget
    obtain ⟨ws, hsub, hhead, hvalue⟩ := (h.branched id es hdir hget).value
    have hcreates : ∀ w ∈ ws, w.CreatesIn id := by
      intro w hw
      obtain ⟨hmem, htarget⟩ := List.mem_filter.1 (hsub.subset hw)
      exact createsIn_of_forFile (h.succeeded w hmem).1 (of_decide_eq_true htarget) hdir
    rw [replay_creates hcreates] at hvalue
    have hok : (p.server.get id).1 = .ok := ExtentServer.get_fst_ok_iff.2
      (h.kept id (ExtentServer.get_fst_ok_iff.1 (congrArg Prod.fst hget)))
    exact ⟨ws, hsub, hhead, Prod.ext hok hvalue⟩
  refine ⟨fun id e hdir he => ?_, h.kept, hdirs⟩
  -- the directory is one of those of before
  obtain ⟨e₀, he₀⟩ := Option.isSome_iff_exists.1 (h.dirs id hdir (by rw [he]; rfl))
  obtain ⟨es, hcontent, hes⟩ := ht id e₀ hdir he₀
  obtain ⟨ws, hsub, -, hget⟩ := hdirs id es hdir
    (ExtentServer.get_eq_ok_iff.2 ⟨e₀, he₀, hcontent⟩)
  rw [ExtentServer.get, he] at hget
  refine ⟨es ++ entered ws, congrArg Prod.snd hget, fun d hd => ?_⟩
  rcases List.mem_append.1 hd with hd | hd
  · exact ⟨(hes d hd).1, h.kept _ (hes d hd).2⟩
  · obtain ⟨id', hmem⟩ := mem_entered hd
    have hsucc := (List.mem_filter.1 (hsub.subset hmem)).1
    obtain ⟨⟨-, hfile, hname⟩, hnamed⟩ := h.succeeded _ hsucc
    exact ⟨hname, hnamed d.inum (if_pos hfile)⟩

section

variable [DecidableEq ι] {p₀ p p' : Clients ι} {i : ι} {a : ι × UInt32}

theorem isSome_put {s : ExtentServer} (id' : UInt64) (buf : List UInt8) (now : UInt32)
    {id : UInt64} (h : (s.extents id).isSome) : ((s.put id' buf now).1.extents id).isSome := by
  rw [ExtentServer.put]
  split
  · exact h
  · exact isSome_update id' _ h

/-- An extent that is there was there, or was put. -/
theorem isSome_of_put {s : ExtentServer} {id' id : UInt64} {buf : List UInt8} {now : UInt32}
    (h : ((s.put id' buf now).1.extents id).isSome) : (s.extents id).isSome ∨ id = id' := by
  by_cases hid : id = id'
  · exact .inr hid
  · rw [← ExtentServer.get_fst_ok_iff, get_put_of_ne (Ne.symm hid)] at h
    exact .inl (ExtentServer.get_fst_ok_iff.1 h)

omit [DecidableEq ι] in
theorem isfile_of_makes {op : ClientOp} {inum : UInt64} (h : op.makes = some inum) :
    YfsClient.isfile inum = true := by
  cases op with
  | create parentID inum' name =>
    obtain ⟨hfile, heq⟩ := Option.ite_none_right_eq_some.1 h
    exact Option.some.inj heq ▸ hfile
  | write => cases h

omit [DecidableEq ι] in
theorem not_isdir {inum : UInt64} (h : YfsClient.isfile inum = true) :
    ¬ YfsClient.isdir inum = true := by
  rw [YfsClient.isdir, h]
  exact Bool.false_ne_true

omit [DecidableEq ι] in
/-- A call that makes a file has made it before it puts the directory
back. -/
theorem phase_of_putting {op : ClientOp} {content : List UInt8} {inum : UInt64}
    (hput : p.putting i = some (op, content)) (hmakes : op.makes = some inum) :
    (p.clients i).phase = .made content := by
  rw [putting] at hput
  split at hput
  · obtain ⟨hno, heq⟩ := Option.ite_none_right_eq_some.1 hput
    obtain ⟨rfl, -⟩ := Prod.mk.inj (Option.some.inj heq)
    rw [hno] at hmakes
    cases hmakes
  · rename_i hphase
    obtain ⟨-, rfl⟩ := Prod.mk.inj (Option.some.inj hput)
    exact hphase
  · cases hput

/-- The clients, after one of them went on. -/
theorem Steady.ready (h : Steady p₀ p) {s : ExtentServer} {x : Client}
    (hgrows : ∀ id, (p.server.extents id).isSome → (s.extents id).isSome) (hx : Ready s x) :
    ∀ j, Ready s (Function.update p.clients i x j) :=
  (Function.forall_update_iff p.clients fun _ x => Ready s x).2
    ⟨hx, fun j _ => (h.clients j).mono hgrows⟩

/-- **One request.** -/
theorem Steady.step (h : Steady p₀ p) (hs : p.step a = some p') : Steady p₀ p' := by
  have hsame : ∀ id, (p.server.extents id).isSome → (p.server.extents id).isSome := fun _ => id
  cases moved_of_step hs with
  | @got op rest content htodo hget =>
    have hsome : (p.server.extents op.target).isSome :=
      ExtentServer.get_fst_ok_iff.1 (congrArg Prod.fst hget)
    refine ⟨h.ready hsame ⟨(h.clients a.1).todo, ?_, ?_⟩, h.succeeded, h.kept, h.dirs,
      fun id es hdir hes => ?_⟩
    · intro op' rest' content' htodo' _
      obtain ⟨rfl, -⟩ := List.cons_eq_cons.1 (htodo.symm.trans htodo')
      exact hsome
    · intro op' rest' content' inum _ hphase
      cases hphase
    · rw [dirCell_got htodo hget]
      split
      · exact (h.branched id es hdir hes).read a.1
      · exact (h.branched id es hdir hes).drop a.1
  | @made op rest content inum now htodo hphase hmakes =>
    have hgrows : ∀ id, (p.server.extents id).isSome →
        ((p.server.put inum [] now).1.extents id).isSome := fun id => isSome_put inum [] now
    have hnew : ((p.server.put inum [] now).1.extents inum).isSome := by
      rw [← ExtentServer.get_fst_ok_iff, ExtentServer.get_put_self now (Nat.zero_le _)]
    have hfile := isfile_of_makes hmakes
    refine ⟨h.ready hgrows ⟨(h.clients a.1).todo, ?_, ?_⟩, fun op hop => ?_,
      fun id hid => hgrows id (h.kept id hid), fun id hdir hid => ?_, fun id es hdir hes => ?_⟩
    · intro op' rest' content' htodo' _
      exact hgrows _ ((h.clients a.1).got op' rest' content htodo' (by rw [hphase]; rfl))
    · intro op' rest' content' inum' htodo' _ hmakes'
      obtain ⟨rfl, -⟩ := List.cons_eq_cons.1 (htodo.symm.trans htodo')
      obtain rfl := Option.some.inj (hmakes.symm.trans hmakes')
      exact hnew
    · obtain ⟨hop', hnamed⟩ := h.succeeded op hop
      exact ⟨hop', fun inum' hinum' => hgrows inum' (hnamed inum' hinum')⟩
    · rcases isSome_of_put hid with hid | rfl
      · exact h.dirs id hdir hid
      · exact absurd hdir (not_isdir hfile)
    · have hne : inum ≠ id := by
        rintro rfl
        exact not_isdir hfile hdir
      rw [dirCell_made htodo hphase hne]
      exact h.branched id es hdir hes
  | @failed op rest htodo =>
    have hrest : ∀ op' ∈ rest, op'.ForFile := fun op' hop' =>
      (h.clients a.1).todo op' (htodo ▸ List.mem_cons_of_mem op hop')
    refine ⟨h.ready hsame (ready_start hrest), h.succeeded, h.kept, h.dirs,
      fun id es hdir hes => ?_⟩
    rw [dirCell_failed]
    exact (h.branched id es hdir hes).drop a.1
  | crashed =>
    refine ⟨h.ready hsame (ready_start (by simp)), h.succeeded, h.kept, h.dirs,
      fun id es hdir hes => ?_⟩
    rw [dirCell_crash]
    exact (h.branched id es hdir hes).drop a.1
  | @put op rest content c now htodo hput hback hlen =>
    obtain ⟨hheld, -⟩ := step_of_putting a.2 hput
    have hgrows : ∀ id, (p.server.extents id).isSome →
        ((p.server.put op.target c now).1.extents id).isSome := fun id => isSome_put op.target c now
    have hop : op.ForFile := (h.clients a.1).todo op (htodo ▸ List.mem_cons_self)
    have hrest : ∀ op' ∈ rest, op'.ForFile := fun op' hop' =>
      (h.clients a.1).todo op' (htodo ▸ List.mem_cons_of_mem op hop')
    refine ⟨h.ready hgrows (ready_start hrest), fun w hw => ?_,
      fun id hid => hgrows id (h.kept id hid), fun id hdir hid => ?_, fun id es hdir hes => ?_⟩
    · rw [succeeded_put] at hw
      rcases List.mem_cons.1 hw with rfl | hw
      · refine ⟨hop, fun inum hmakes => hgrows inum ?_⟩
        exact (h.clients a.1).made w rest content inum htodo (phase_of_putting hput hmakes) hmakes
      · obtain ⟨hw', hnamed⟩ := h.succeeded w hw
        exact ⟨hw', fun inum hinum => hgrows inum (hnamed inum hinum)⟩
    · rcases isSome_of_put hid with hid | rfl
      · exact h.dirs id hdir hid
      · exact h.dirs _ hdir ((h.clients a.1).got op rest content htodo hheld)
    · rw [dirCell_put rest hback hlen]
      split
      · rename_i htarget
        refine (h.branched id es hdir hes).commit ?_ op
        simp only [dirCell, Client.held, htodo, htarget, if_true, hheld]
      · exact (h.branched id es hdir hes).drop a.1

omit [DecidableEq ι] in
theorem steady_of_start (hstart : ∀ i, (p₀.clients i).phase = .start) (hdone : p₀.done = [])
    (hops : ∀ i, ∀ op ∈ (p₀.clients i).todo, op.ForFile) : Steady p₀ p₀ := by
  have hclient : ∀ i, p₀.clients i = ⟨(p₀.clients i).todo, .start⟩ := by
    intro i
    rw [← hstart i]
  have hnil : p₀.succeeded = [] := by rw [Clients.succeeded, hdone, List.filterMap_nil]
  refine ⟨fun i => ?_, by rw [hnil]; simp, fun _ => id, fun _ _ => id, fun id es _ hes => ?_⟩
  · rw [hclient i]
    exact ready_start (hops i)
  · refine ⟨⟨[], List.nil_sublist _, ?_, congrArg Prod.snd hes⟩, fun i v hv => ?_⟩
    · simp only [dirCell, succeededOn, hnil, List.filter_nil]
    · simp only [dirCell] at hv
      rw [hclient i, held_start] at hv
      cases hv

/-- **Every interleaving.** Clients that begin calls for files, and find
the directories in order, leave them in order at every moment: their texts
are those of entries with proper names that name extents, the entries of
the beginning are there, and after them those of some of the calls that
succeeded, the last one among them. -/
theorem along_intact (ht : Tidy p₀.server) (hstart : ∀ i, (p₀.clients i).phase = .start)
    (hdone : p₀.done = []) (hops : ∀ i, ∀ op ∈ (p₀.clients i).todo, op.ForFile)
    (as : List (ι × UInt32)) : Along step (Intact p₀) p₀ as :=
  along_invariant (fun _ _ _ h hs => h.step hs) (fun _ h => h.intact ht)
    (steady_of_start hstart hdone hops)

/-- Two clients create a file each in the root, one between the requests
of the other. Both calls succeed, one entry is lost, and the root is in
order. -/
theorem along_intact_twoCreates : Tidy twoCreates.server ∧
    Along step (Intact twoCreates) twoCreates
      [(false, 1), (true, 1), (true, 1), (true, 1), (false, 1), (false, 1)] ∧
    ∃ p, exec step twoCreates
        [(false, 1), (true, 1), (true, 1), (true, 1), (false, 1), (false, 1)] = some p ∧
      p.succeeded.length = 2 ∧ (p.server.get 1).2 = dirString [⟨[97], 0x80000005⟩] := by
  refine ⟨tidy_new 0, along_intact (tidy_new 0) ?_ rfl ?_ _, _, rfl, rfl, ?_⟩
  · intro i
    cases i <;> rfl
  · intro i op hop
    cases i <;> obtain rfl := List.mem_singleton.1 hop <;> exact ⟨by decide, by decide, by decide⟩
  · decide

end

end Clients

end Yfs
