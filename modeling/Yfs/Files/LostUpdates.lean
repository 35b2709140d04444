import Mathlib.Data.List.Nodup
import Yfs.Files.Updates

/-!
# Lost updates

A call that puts back what it made of an older content of its extent
takes away what the others have put there since. `noLostUpdate_iff` says
that clients who create in one directory, or write to one file, lose
something in this way and in no other, but for names that a directory
cannot record once: those that it has already, and those with a `':'`.
-/

namespace Yfs

open Common
open Cell (replay)

variable {ι : Type*} [DecidableEq ι]

/-! ## Directories -/

/-- The entries that the calls, newest first, make one after the other. -/
def entered : List ClientOp → List DirEntry
  | [] => []
  | .create _ inum name :: ws => entered ws ++ [⟨name, inum⟩]
  | .write _ _ _ _ :: ws => entered ws

section Creates

variable {parentID : UInt64} {es : List DirEntry} {ws us : List ClientOp}

theorem ClientOp.CreatesIn.exists_eq {op : ClientOp} (h : op.CreatesIn parentID) :
    ∃ inum name, op = .create parentID inum name := by
  cases op with
  | create id inum name => exact ⟨inum, name, by rw [h]⟩
  | write => exact absurd h id

/-- The content is the text of the entries. -/
theorem replay_creates (h : ∀ w ∈ ws, w.CreatesIn parentID) :
    replay ClientOp.apply (dirString es) ws = dirString (es ++ entered ws) := by
  induction ws with
  | nil => rw [entered, List.append_nil]; rfl
  | cons w ws ih =>
    obtain ⟨inum, name, rfl⟩ := (h w List.mem_cons_self).exists_eq
    rw [Cell.replay_cons, ih fun w hw => h w (List.mem_cons_of_mem _ hw), entered,
      ← List.append_assoc, ← appended_dirString]
    rfl

theorem mem_map_entered {n : List UInt8} :
    n ∈ (entered ws).map DirEntry.name ↔ ∃ id inum, ClientOp.create id inum n ∈ ws := by
  induction ws with
  | nil => simp [entered]
  | cons w ws ih =>
    cases w with
    | create id inum name =>
      rw [entered, List.map_append, List.mem_append, ih, List.map_singleton, List.mem_singleton]
      constructor
      · rintro (⟨id', inum', h⟩ | rfl)
        · exact ⟨id', inum', List.mem_cons_of_mem _ h⟩
        · exact ⟨id, inum, List.mem_cons_self⟩
      · rintro ⟨id', inum', h⟩
        rcases List.mem_cons.1 h with h | h
        · cases h
          exact .inr rfl
        · exact .inl ⟨id', inum', h⟩
    | write => simp [entered, ih]

/-- A name that no call has in common is entered by none. -/
theorem not_mem_map_entered {id inum : UInt64} {name : List UInt8}
    (h : ∀ w ∈ ws, w.Apart (.create id inum name)) :
    name ∉ (entered ws).map DirEntry.name := by
  intro hmem
  obtain ⟨id', inum', hw⟩ := mem_map_entered.1 hmem
  exact (h _ hw).1 rfl

theorem nodup_entered (h : ws.Pairwise ClientOp.Apart) :
    ((entered ws).map DirEntry.name).Nodup := by
  induction ws with
  | nil => exact List.nodup_nil
  | cons w ws ih =>
    obtain ⟨hw, hws⟩ := List.pairwise_cons.1 h
    cases w with
    | create id inum name =>
      rw [entered, List.map_append, List.map_singleton, ← List.concat_eq_append]
      exact (ih hws).concat (not_mem_map_entered fun w' hw' => (hw w' hw').symm)
    | write => exact ih hws

/-- The name of a call is proper, and not in the directory of before. -/
def ProperIn (es : List DirEntry) : ClientOp → Prop
  | .create _ _ name => colon ∉ name ∧ name ∉ es.map DirEntry.name
  | .write _ _ _ _ => False

theorem colon_not_mem_entered (h : ∀ w ∈ ws, ProperIn es w) : ∀ e ∈ entered ws, colon ∉ e.name := by
  intro e he
  obtain ⟨id, inum, hw⟩ := mem_map_entered.1 (List.mem_map_of_mem he)
  exact (h _ hw).1

/-- The calls leave the entries of before, and their own. -/
theorem recorded_creates (hes : ∀ e ∈ es, colon ∉ e.name)
    (h : ∀ w ∈ ws, w.CreatesIn parentID ∧ ProperIn es w) :
    recorded (replay ClientOp.apply (dirString es) ws) = es ++ entered ws := by
  rw [replay_creates fun w hw => (h w hw).1]
  refine recorded_dirString fun e he => ?_
  rcases List.mem_append.1 he with he | he
  · exact hes e he
  · exact colon_not_mem_entered (fun w hw => (h w hw).2) e he

theorem shown_creates (hes : ∀ e ∈ es, colon ∉ e.name)
    (h : ∀ w ∈ ws, w.CreatesIn parentID ∧ ProperIn es w) (hapart : ws.Pairwise ClientOp.Apart) :
    ∀ w ∈ ws, w.Shown (replay ClientOp.apply (dirString es) ws) := by
  intro w hw
  obtain ⟨inum, name, rfl⟩ := (h w hw).1.exists_eq
  rw [ClientOp.Shown, recorded_creates hes h, List.map_append, List.count_append,
    List.count_eq_zero.2 (h _ hw).2.2,
    List.count_eq_one_of_mem (nodup_entered hapart) (mem_map_entered.2 ⟨parentID, inum, hw⟩)]

/-- A name recorded once at the end is not recorded before it. -/
theorem not_mem_of_count_concat {l : List (List UInt8)} {n : List UInt8}
    (h : (l ++ [n]).count n = 1) : n ∉ l := by
  rw [List.count_append, List.count_singleton_self] at h
  exact List.count_eq_zero.1 (by omega)

theorem fresh_creates {inum : UInt64} {name : List UInt8} (hes : ∀ e ∈ es, colon ∉ e.name)
    (h : ∀ w ∈ ws, w.CreatesIn parentID ∧ ProperIn es w) (hapart : ws.Pairwise ClientOp.Apart)
    (hop : ∀ w ∈ ws, w.Apart (.create parentID inum name)) (hus : us <:+ ws)
    (hshown : ∀ w ∈ ClientOp.create parentID inum name :: ws,
      w.Shown (appended (replay ClientOp.apply (dirString es) us) name inum)) :
    replay ClientOp.apply (dirString es) us = replay ClientOp.apply (dirString es) ws ∧
      (ClientOp.create parentID inum name).New (replay ClientOp.apply (dirString es) us) := by
  have hgood : ∀ w ∈ us, w.CreatesIn parentID ∧ ProperIn es w := fun w hw => h w (hus.subset hw)
  have hself := hshown _ List.mem_cons_self
  -- the call itself is recorded, so its name is proper
  have hname : colon ∉ name := by
    have hpos : 0 < ((recorded (appended (replay ClientOp.apply (dirString es) us) name
        inum)).map DirEntry.name).count name := by
      rw [ClientOp.Shown] at hself
      omega
    obtain ⟨e, he, rfl⟩ := List.mem_map.1 (List.count_pos_iff.1 hpos)
    exact colon_not_mem_of_recorded e he
  have hrec : recorded (appended (replay ClientOp.apply (dirString es) us) name inum) =
      es ++ entered us ++ [⟨name, inum⟩] := by
    have hall : ∀ e ∈ es ++ entered us ++ [⟨name, inum⟩], colon ∉ e.name := by
      intro e he
      rcases List.mem_append.1 he with he | he
      · rw [← recorded_creates hes hgood] at he
        exact colon_not_mem_of_recorded e he
      · rw [List.mem_singleton.1 he]
        exact hname
    rw [replay_creates fun w hw => (hgood w hw).1]
    exact (congrArg recorded (appended_dirString _ ⟨name, inum⟩)).trans (recorded_dirString hall)
  have hnew : name ∉ (es ++ entered us).map DirEntry.name := by
    rw [ClientOp.Shown, hrec, List.map_append] at hself
    exact not_mem_of_count_concat hself
  refine ⟨?_, hname, by rwa [recorded_creates hes hgood]⟩
  -- a call that is not among the older ones would be lost
  obtain ⟨ts, rfl⟩ := hus
  cases ts with
  | nil => rfl
  | cons w ts =>
    exfalso
    have hw : w ∈ w :: ts ++ us := List.mem_cons_self
    obtain ⟨inum', name', rfl⟩ := (h w hw).1.exists_eq
    have hlost := hshown _ (List.mem_cons_of_mem _ hw)
    rw [ClientOp.Shown, hrec] at hlost
    have hmem := List.count_pos_iff.1 (by rw [hlost]; exact Nat.one_pos)
    rw [List.map_append, List.map_append, List.mem_append, List.mem_append] at hmem
    rcases hmem with (hmem | hmem) | hmem
    · exact (h _ hw).2.2 hmem
    · have hnot : ∀ u ∈ us, u.Apart (.create parentID inum' name') := fun u hu =>
        (List.rel_of_pairwise_cons hapart (List.mem_append_right ts hu)).symm
      exact not_mem_map_entered hnot hmem
    · exact (hop _ hw).1 (List.mem_singleton.1 hmem)

/-- **Creating in a directory.** -/
theorem workload_creates (hdir : YfsClient.isdir parentID = true)
    (hes : ∀ e ∈ es, colon ∉ e.name) :
    Workload parentID (dirString es) (ClientOp.CreatesIn parentID) (ProperIn es) where
  target op hop := by
    obtain ⟨inum, name, rfl⟩ := hop.exists_eq
    rfl
  makes op inum hop hmakes := by
    obtain ⟨inum', name, rfl⟩ := hop.exists_eq
    rw [ClientOp.makes] at hmakes
    split at hmakes
    · rename_i hfile
      cases hmakes
      rintro rfl
      rw [YfsClient.isdir, hfile] at hdir
      cases hdir
    · cases hmakes
  good op ws c hop h hback hlen hnew := by
    obtain ⟨inum, name, rfl⟩ := hop.exists_eq
    rw [ClientOp.New, recorded_creates hes h, List.map_append, List.mem_append, not_or] at hnew
    exact ⟨hnew.1, hnew.2.1⟩
  shown ws h hapart := shown_creates hes h hapart
  fresh op ws us c hop h hapart hnext hus hback hlen hshown := by
    obtain ⟨inum, name, rfl⟩ := hop.exists_eq
    obtain rfl := Option.some.inj hback
    exact fresh_creates hes h hapart hnext hus hshown

end Creates

/-! ## Files -/

/-- The byte that the write stores at `i`. -/
def ClientOp.byte (i : ℕ) : ClientOp → Option UInt8
  | .create _ _ _ => none
  | .write _ buf _ off => buf[i - toSize off]?

section Writes

variable {fileID : UInt64} {len : ℕ} {v₀ v c : List UInt8} {w : ClientOp}
variable {ws us : List ClientOp}

theorem ClientOp.WritesIn.exists_eq (hw : w.WritesIn fileID len) :
    ∃ buf size off, w = .write fileID buf size off := by
  cases w with
  | create => exact absurd hw id
  | write id buf size off => exact ⟨buf, size, off, by rw [hw.1]⟩

/-- A write in range replaces as many bytes as it has. -/
theorem putsBack_write {id : UInt64} {buf : List UInt8} {size off : Int32}
    (hw : (ClientOp.write id buf size off).WritesIn fileID len) (hv : v.length = len)
    (hmax : len ≤ maxextent) :
    (ClientOp.write id buf size off).putsBack v =
      some (v.take (toSize off) ++ buf.take (toSize size) ++
        v.drop (toSize off + toSize size)) := by
  obtain ⟨-, hoff, -, hrange, -⟩ := hw
  rw [ClientOp.putsBack, stringSubstr_zero, Option.bind_some]
  split
  · rename_i hge
    -- at the end of the file there is no range left but the empty one
    have hle : v.length ≤ toSize off := by
      rw [ge_iff_le, Int32.le_iff_toInt_le, toInt_ofNat_small (by omega)] at hge
      rw [toSize_of_nonneg hoff]
      omega
    have hsize : toSize size = 0 := by omega
    rw [List.take_of_length_le hle, List.drop_of_length_le (by omega), hsize, List.take_zero,
      List.append_nil, List.append_nil]
  · rw [stringReplace, if_neg (by omega)]

theorem getElem?_replaced {b : List UInt8} {o : ℕ} (h : o + b.length ≤ v.length) (i : ℕ) :
    (v.take o ++ b ++ v.drop (o + b.length))[i]? =
      if o ≤ i ∧ i < o + b.length then b[i - o]? else v[i]? := by
  have hlen : (v.take o).length = o := List.length_take_of_le (by omega)
  rcases Nat.lt_or_ge i o with hlt | hge
  · rw [if_neg (by omega), List.append_assoc, List.getElem?_append_left (by omega),
      List.getElem?_take_of_lt hlt]
  · rcases Nat.lt_or_ge i (o + b.length) with hlt | hge'
    · rw [if_pos ⟨hge, hlt⟩, List.getElem?_append_left (by rw [List.length_append]; omega),
        List.getElem?_append_right (by omega), hlen]
    · rw [if_neg (by omega), List.getElem?_append_right (by rw [List.length_append]; omega),
        List.length_append, List.getElem?_drop, hlen]
      congr 1
      omega

/-- **A write** stores its bytes, and changes no others. -/
theorem apply_write (hw : w.WritesIn fileID len) (hv : v.length = len) (hmax : len ≤ maxextent) :
    (w.apply v).length = len ∧ (∀ i, w.Covers i → (w.apply v)[i]? = w.byte i) ∧
      ∀ i, ¬ w.Covers i → (w.apply v)[i]? = v[i]? := by
  obtain ⟨buf, size, off, rfl⟩ := hw.exists_eq
  have hback := putsBack_write hw hv hmax
  obtain ⟨-, -, -, hrange, hbuf⟩ := hw
  have hlen : (buf.take (toSize size)).length = toSize size := List.length_take_of_le hbuf
  have happly : (ClientOp.write fileID buf size off).apply v =
      v.take (toSize off) ++ buf.take (toSize size) ++
        v.drop (toSize off + (buf.take (toSize size)).length) := by
    rw [ClientOp.apply, hback, hlen, Option.getD_some]
  have hget : ∀ i, ((ClientOp.write fileID buf size off).apply v)[i]? =
      if toSize off ≤ i ∧ i < toSize off + toSize size then
        (buf.take (toSize size))[i - toSize off]?
      else v[i]? := by
    intro i
    rw [happly, getElem?_replaced (by omega), hlen]
  refine ⟨?_, fun i hi => ?_, fun i hi => ?_⟩
  · rw [happly, List.length_append, List.length_append, List.length_take, List.length_drop, hlen]
    omega
  · have hi' : toSize off ≤ i ∧ i < toSize off + toSize size := hi
    rw [hget, if_pos hi', ClientOp.byte, List.getElem?_take_of_lt (by omega)]
  · have hi' : ¬ (toSize off ≤ i ∧ i < toSize off + toSize size) := hi
    rw [hget, if_neg hi']

theorem shown_write_iff (hw : w.WritesIn fileID len) :
    w.Shown v ↔ ∀ i, w.Covers i → v[i]? = w.byte i := by
  obtain ⟨buf, size, off, rfl⟩ := hw.exists_eq
  rw [ClientOp.Shown]
  constructor
  · intro h i hi
    have hi' : toSize off ≤ i ∧ i < toSize off + toSize size := hi
    have hget := congrArg (fun l : List UInt8 => l[i - toSize off]?) h
    rw [List.getElem?_take_of_lt (by omega), List.getElem?_take_of_lt (by omega),
      List.getElem?_drop, Nat.add_sub_cancel' hi'.1] at hget
    exact hget
  · intro h
    refine List.ext_getElem? fun k => ?_
    rcases Nat.lt_or_ge k (toSize size) with hlt | hge
    · have hk := h (toSize off + k) ⟨by omega, by omega⟩
      rw [ClientOp.byte, Nat.add_sub_cancel_left] at hk
      rw [List.getElem?_take_of_lt hlt, List.getElem?_take_of_lt hlt, List.getElem?_drop, hk]
    · rw [List.getElem?_take_eq_none hge, List.getElem?_take_eq_none hge]

/-- The writes change no byte that none of them covers. -/
theorem replay_writes (hmax : v₀.length ≤ maxextent)
    (h : ∀ w ∈ ws, w.WritesIn fileID v₀.length) :
    (replay ClientOp.apply v₀ ws).length = v₀.length ∧
      ∀ i, (∀ w ∈ ws, ¬ w.Covers i) → (replay ClientOp.apply v₀ ws)[i]? = v₀[i]? := by
  induction ws with
  | nil => exact ⟨rfl, fun i _ => rfl⟩
  | cons w ws ih =>
    obtain ⟨hlen, hkeep⟩ := ih fun u hu => h u (List.mem_cons_of_mem w hu)
    obtain ⟨hlen', -, hkeep'⟩ := apply_write (h w List.mem_cons_self) hlen hmax
    refine ⟨hlen', fun i hi => ?_⟩
    rw [Cell.replay_cons, hkeep' i (hi w List.mem_cons_self)]
    exact hkeep i fun u hu => hi u (List.mem_cons_of_mem w hu)

/-- Each of the writes is there, where no two cover the same byte. -/
theorem shown_writes (hmax : v₀.length ≤ maxextent) (h : ∀ w ∈ ws, w.WritesIn fileID v₀.length)
    (hapart : ws.Pairwise ClientOp.Apart) :
    ∀ w ∈ ws, w.Shown (replay ClientOp.apply v₀ ws) := by
  induction ws with
  | nil => exact fun w hw => absurd hw List.not_mem_nil
  | cons u ws ih =>
    have hws : ∀ w ∈ ws, w.WritesIn fileID v₀.length := fun w hw => h w (List.mem_cons_of_mem u hw)
    obtain ⟨hu, hapart⟩ := List.pairwise_cons.1 hapart
    obtain ⟨-, hbyte, hkeep⟩ :=
      apply_write (h u List.mem_cons_self) (replay_writes hmax hws).1 hmax
    intro w hw
    rw [shown_write_iff (h w hw), Cell.replay_cons]
    intro i hi
    rcases List.mem_cons.1 hw with rfl | hw
    · exact hbyte i hi
    · rw [hkeep i fun hi' => (hu w hw).not_both hi' hi]
      exact (shown_write_iff (hws w hw)).1 (ih hws hapart w hw) i hi

/-- What is put back is as long as what there was, at least. -/
theorem length_le_of_putsBack (hw : w.WritesIn fileID len) (hv : v.length = len)
    (hback : w.putsBack v = some c) : len ≤ c.length := by
  obtain ⟨buf, size, off, rfl⟩ := hw.exists_eq
  obtain ⟨-, -, -, hrange, hbuf⟩ := hw
  rw [ClientOp.putsBack] at hback
  obtain ⟨b, hb, hback⟩ := Option.bind_eq_some_iff.1 hback
  split at hback
  · cases hback
    rw [List.length_append]
    omega
  · rw [stringReplace] at hback
    rw [stringSubstr_zero] at hb
    cases hb
    split at hback
    · cases hback
    · cases hback
      rw [List.length_append, List.length_append, List.length_take, List.length_take,
        List.length_drop]
      omega

/-- A write that takes nothing away found what all the others had
written. -/
theorem fresh_writes {op : ClientOp} (hmax : v₀.length ≤ maxextent)
    (hop : op.WritesIn fileID v₀.length) (h : ∀ w ∈ ws, w.WritesIn fileID v₀.length)
    (hapart : ws.Pairwise ClientOp.Apart) (hnext : ∀ w ∈ ws, w.Apart op) (hus : us <:+ ws)
    (hback : op.putsBack (replay ClientOp.apply v₀ us) = some c) (hshown : ∀ w ∈ ws, w.Shown c) :
    replay ClientOp.apply v₀ us = replay ClientOp.apply v₀ ws := by
  obtain ⟨hlen, hkeep⟩ := replay_writes hmax fun w hw => h w (hus.subset hw)
  have hc : op.apply (replay ClientOp.apply v₀ us) = c := by
    rw [ClientOp.apply, hback, Option.getD_some]
  refine List.ext_getElem? fun i => ?_
  by_cases hcov : ∃ w ∈ ws, w.Covers i
  · -- the byte is still what was written there, and the write does not cover it
    obtain ⟨w, hw, hi⟩ := hcov
    have hold := (apply_write hop hlen hmax).2.2 i ((hnext w hw).not_both hi)
    rw [hc] at hold
    rw [← hold, (shown_write_iff (h w hw)).1 (hshown w hw) i hi,
      (shown_write_iff (h w hw)).1 (shown_writes hmax h hapart w hw) i hi]
  · have hnone : ∀ w ∈ ws, ¬ w.Covers i := fun w hw hi => hcov ⟨w, hw, hi⟩
    rw [hkeep i fun w hw => hnone w (hus.subset hw), (replay_writes hmax h).2 i hnone]

/-- **Writing to a file.** -/
theorem workload_writes (fileID : UInt64) (v₀ : List UInt8) :
    Workload fileID v₀ (ClientOp.WritesIn fileID v₀.length) fun _ => v₀.length ≤ maxextent where
  target op hop := by
    obtain ⟨buf, size, off, rfl⟩ := hop.exists_eq
    rfl
  makes op inum hop hmakes := by
    obtain ⟨buf, size, off, rfl⟩ := hop.exists_eq
    cases hmakes
  good op ws c hop h hback hlen _ := by
    cases ws with
    | nil => exact (length_le_of_putsBack hop rfl hback).trans hlen
    | cons w ws => exact (h w List.mem_cons_self).2
  shown ws h hapart w hw :=
    shown_writes (h w hw).2 (fun w hw => (h w hw).1) hapart w hw
  fresh op ws us c hop h hapart hnext hus hback hlen hshown := by
    refine ⟨?_, ?_⟩
    · cases ws with
      | nil => rw [List.suffix_nil.1 hus]
      | cons w ws =>
        exact fresh_writes (h w List.mem_cons_self).2 hop (fun u hu => (h u hu).1) hapart hnext hus
          hback fun u hu => hshown u (List.mem_cons_of_mem op hu)
    · obtain ⟨buf, size, off, rfl⟩ := hop.exists_eq
      trivial

end Writes

/-- **No update is lost, exactly where no call is disturbed.** Any number
of clients create in one directory, under different names, or write to
disjoint ranges of one file. In every interleaving of their requests, the
names created so far are recorded once each, or the bytes written so far
are in the file, if and only if every call that succeeds puts back what it
made of the content that is there at that time, and every name is new
there and has no `':'`. -/
theorem noLostUpdate_iff (p : Clients ι) (h : Creating p ∨ Writing p) (as : List (ι × UInt32)) :
    Along Clients.step NoLostUpdate p as ↔ Steps Clients.step Undisturbed p as := by
  rcases h with ⟨parentID, es, hdir, hget, hes, hbegins⟩ | ⟨fileID, content, hget, hbegins⟩
  · exact (workload_creates hdir hes).along_iff hget hbegins as
  · exact (workload_writes fileID content).along_iff hget hbegins as

instance (content : List UInt8) : (op : ClientOp) → Decidable (op.New content)
  | .create _ _ name =>
    inferInstanceAs (Decidable (colon ∉ name ∧ name ∉ (recorded content).map DirEntry.name))
  | .write _ _ _ _ => inferInstanceAs (Decidable True)

instance (p : Clients ι) (a : ι × UInt32) : Decidable (Undisturbed p a) :=
  decidable_of_iff
    (∀ x ∈ p.putting a.1, ∀ c ∈ x.1.putsBack x.2, c.length ≤ maxextent →
      p.server.get x.1.target = (.ok, x.2) ∧ x.1.New x.2)
    ⟨fun h op content c hput hback => h (op, content) hput c hback,
      fun h x hx c hc => h x.1 x.2 c hx hc⟩

/-- Two clients, with a call each. -/
def twoClients (s : ExtentServer) (op op' : ClientOp) : Clients Bool :=
  ⟨s, fun i => if i then ⟨[op'], .start⟩ else ⟨[op], .start⟩, []⟩

theorem begins_twoClients {Kind : ClientOp → Prop} (s : ExtentServer) {op op' : ClientOp}
    (hop : Kind op) (hop' : Kind op') (h : op.Apart op') :
    (twoClients s op op').Begins Kind where
  done := rfl
  start i := by cases i <;> rfl
  kind i := by cases i <;> simpa [twoClients]
  own i := by cases i <;> simp [twoClients]
  others i j hij := by
    cases i <;> cases j <;> simp [twoClients, h, h.symm] at hij ⊢

/-- Two clients create a file each in the root. -/
def twoCreates : Clients Bool :=
  twoClients (.new 0) (.create 1 0x80000005 [97]) (.create 1 0x80000006 [98])

theorem creating_twoCreates : Creating twoCreates := by
  refine ⟨1, [], by decide, rfl, by simp, begins_twoClients _ rfl rfl ?_⟩
  exact ⟨by decide, by decide⟩

/-- Two clients write a byte each to a file of two bytes. -/
def twoWrites : Clients Bool :=
  twoClients ((ExtentServer.new 0).put 0x80000005 [97, 98] 0).1
    (.write 0x80000005 [120] 1 0) (.write 0x80000005 [121] 1 1)

theorem writing_twoWrites : Writing twoWrites := by
  refine ⟨0x80000005, [97, 98], rfl, begins_twoClients _ ?_ ?_ ?_⟩
  · exact ⟨rfl, by decide⟩
  · exact ⟨rfl, by decide⟩
  · intro i hi hi'
    obtain ⟨-, hlt⟩ := hi
    obtain ⟨hle, -⟩ := hi'
    have h0 : toSize 0 = 0 := rfl
    have h1 : toSize 1 = 1 := rfl
    omega

/-- One after the other. -/
theorem noLostUpdate_in_turn :
    Along Clients.step NoLostUpdate twoCreates
      [(false, 1), (false, 1), (false, 2), (true, 3), (true, 3), (true, 4)] ∧
    Along Clients.step NoLostUpdate twoWrites [(false, 1), (false, 2), (true, 3), (true, 4)] :=
  ⟨(noLostUpdate_iff twoCreates (.inl creating_twoCreates) _).2 (by decide),
    (noLostUpdate_iff twoWrites (.inr writing_twoWrites) _).2 (by decide)⟩

/-- Both get the content before either puts it back: the name that is put
first is not recorded any more, and the byte that is written first is not
in the file. -/
theorem not_noLostUpdate_interleaved :
    Creating twoCreates ∧
    ¬ Along Clients.step NoLostUpdate twoCreates
      [(false, 1), (true, 1), (false, 2), (true, 2), (false, 3), (true, 4)] ∧
    Writing twoWrites ∧
    ¬ Along Clients.step NoLostUpdate twoWrites
      [(false, 1), (true, 1), (false, 2), (true, 3)] := by
  refine ⟨creating_twoCreates, fun h => ?_, writing_twoWrites, fun h => ?_⟩
  · have hshown := h.last rfl (.create 1 0x80000005 [97]) (by decide)
    rw [ClientOp.Shown] at hshown
    exact absurd hshown (by decide)
  · have hshown := h.last rfl (.write 0x80000005 [120] 1 0) (by decide)
    rw [ClientOp.Shown] at hshown
    exact absurd hshown (by decide)

end Yfs
