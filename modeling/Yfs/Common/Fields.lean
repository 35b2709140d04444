import Mathlib.Data.List.Basic

/-!
# Fields of a separated string

A string that is a list of fields with a separator between them, the
search for a substring, and what a search for a word that ends in a
separator finds: the first field that ends in the word
(`find_terminated_cons`).
-/

namespace Common

variable {α : Type*} [DecidableEq α]

/-- Where `pat` occurs first in a string. -/
def find (pat : List α) : List α → Option ℕ
  | [] => if pat = [] then some 0 else none
  | c :: l => if pat <+: c :: l then some 0 else (find pat l).map (· + 1)

/-- Each field, with the separator after it. -/
def terminated (sep : α) (fs : List (List α)) : List α := fs.flatMap fun f => f ++ [sep]

omit [DecidableEq α] in
@[simp] theorem terminated_nil (sep : α) : terminated sep [] = [] := rfl

omit [DecidableEq α] in
@[simp] theorem terminated_cons (sep : α) (f : List α) (fs : List (List α)) :
    terminated sep (f :: fs) = f ++ sep :: terminated sep fs := by
  rw [terminated, List.flatMap_cons, List.append_assoc]
  rfl

omit [DecidableEq α] in
/-- Separators between the fields and one at the end. -/
theorem intercalate_append (sep : α) (f : List α) (fs : List (List α)) :
    [sep].intercalate (f :: fs) ++ [sep] = terminated sep (f :: fs) := by
  induction fs generalizing f with
  | nil => simp
  | cons g fs ih =>
    rw [List.intercalate_cons_cons, List.append_assoc, ih, terminated_cons sep f, List.append_assoc]
    rfl

omit [DecidableEq α] in
theorem terminated_append (sep : α) (fs gs : List (List α)) :
    terminated sep (fs ++ gs) = terminated sep fs ++ terminated sep gs := List.flatMap_append

omit [DecidableEq α] in
/-- Separators between the fields and one more. -/
theorem intercalate_concat (sep : α) (fs : List (List α)) (f : List α) :
    [sep].intercalate (fs ++ [f]) = terminated sep fs ++ f := by
  induction fs with
  | nil => simp
  | cons g fs ih =>
    rw [List.cons_append, List.intercalate_cons_of_ne_nil (by simp), ih, terminated_cons,
      List.append_assoc, List.append_assoc]
    rfl

omit [DecidableEq α] in
/-- Fields without separators are told apart by the separators. -/
theorem append_cons_inj {sep : α} {w f l m : List α} (hw : sep ∉ w) (hf : sep ∉ f) :
    w ++ sep :: l = f ++ sep :: m ↔ w = f ∧ l = m := by
  induction w generalizing f with
  | nil =>
    cases f with
    | nil => simp
    | cons c f =>
      have hc : sep ≠ c := fun h => hf (h ▸ List.mem_cons_self)
      simp [hc]
  | cons a w ih =>
    cases f with
    | nil =>
      have ha : a ≠ sep := fun h => hw (h ▸ List.mem_cons_self)
      simp [ha]
    | cons c f =>
      have := ih (fun h => hw (List.mem_cons_of_mem a h)) (f := f)
        (fun h => hf (List.mem_cons_of_mem c h))
      simp [this, and_assoc]

omit [DecidableEq α] in
theorem prefix_field_iff {sep : α} {w f l : List α} (hw : sep ∉ w) (hf : sep ∉ f) :
    w ++ [sep] <+: f ++ sep :: l ↔ w = f := by
  constructor
  · rintro ⟨t, ht⟩
    rw [List.append_assoc] at ht
    exact ((append_cons_inj hw hf).1 ht).1
  · rintro rfl
    exact ⟨l, by rw [List.append_assoc]; rfl⟩

/-- **What a word and a separator are found by**: the first field that
ends in the word. -/
theorem find_terminated_cons {sep : α} {w f : List α} {l : List α} (hw : sep ∉ w)
    (hf : sep ∉ f) :
    find (w ++ [sep]) (f ++ sep :: l) =
      if w <:+ f then some (f.length - w.length)
      else (find (w ++ [sep]) l).map (· + (f.length + 1)) := by
  induction f with
  | nil =>
    have hhead : w ++ [sep] <+: sep :: l ↔ w = [] := prefix_field_iff (f := []) hw hf
    rw [List.nil_append, find]
    by_cases h : w = []
    · rw [if_pos (hhead.2 h), if_pos (h ▸ List.suffix_refl []), h]
      rfl
    · rw [if_neg (mt hhead.1 h), if_neg (mt List.suffix_nil.1 h)]
      rfl
  | cons c f ih =>
    have hf' : sep ∉ f := fun h => hf (List.mem_cons_of_mem c h)
    have hhead : w ++ [sep] <+: c :: (f ++ sep :: l) ↔ w = c :: f := prefix_field_iff hw hf
    rw [List.cons_append, find, ih hf']
    by_cases h : w = c :: f
    · rw [if_pos (hhead.2 h), h, if_pos (List.suffix_refl _), Nat.sub_self]
    · rw [if_neg (mt hhead.1 h)]
      by_cases hs : w <:+ f
      · have hlen := hs.length_le
        rw [if_pos hs, if_pos (hs.trans (List.suffix_cons c f)), Option.map_some,
          List.length_cons, Nat.sub_add_comm hlen]
      · have hs' : ¬ w <:+ c :: f := fun h' => (List.suffix_cons_iff.1 h').elim h hs
        rw [if_neg hs, if_neg hs', Option.map_map]
        rfl

/-- The fields after the first that ends in `w`. -/
def after (w : List α) : List (List α) → Option (List (List α))
  | [] => none
  | f :: fs => if w <:+ f then some fs else after w fs

theorem after_suffix {w : List α} {fs gs : List (List α)} (h : after w fs = some gs) :
    gs <:+ fs := by
  induction fs with
  | nil => cases h
  | cons f fs ih =>
    rw [after] at h
    split at h
    · exact Option.some.inj h ▸ List.suffix_cons f fs
    · exact (ih h).trans (List.suffix_cons f fs)

theorem not_mem_of_after_none {w : List α} {fs : List (List α)} (h : after w fs = none) :
    w ∉ fs := by
  induction fs with
  | nil => exact List.not_mem_nil
  | cons f fs ih =>
    rw [after] at h
    split at h
    · cases h
    · rename_i hsuf
      have hne : w ≠ f := fun hw => hsuf (hw ▸ List.suffix_refl w)
      exact List.not_mem_cons_of_ne_of_not_mem hne (ih h)

/-- No field ends in the word: it is not found. -/
theorem find_terminated_of_after_none {sep : α} {w : List α} {fs : List (List α)} (hw : sep ∉ w)
    (hfs : ∀ f ∈ fs, sep ∉ f) (h : after w fs = none) :
    find (w ++ [sep]) (terminated sep fs) = none := by
  induction fs with
  | nil =>
    rw [terminated_nil, find, if_neg (by simp)]
  | cons f fs ih =>
    rw [after] at h
    split at h
    · cases h
    · rename_i hsuf
      rw [terminated_cons, find_terminated_cons hw (hfs f List.mem_cons_self), if_neg hsuf,
        ih (fun g hg => hfs g (List.mem_cons_of_mem f hg)) h, Option.map_none]

/-- The word is found at the end of the first field that ends in it. -/
theorem find_terminated_of_after {sep : α} {w : List α} {fs gs : List (List α)} (hw : sep ∉ w)
    (hfs : ∀ f ∈ fs, sep ∉ f) (h : after w fs = some gs) :
    ∃ pre, terminated sep fs = pre ++ (w ++ [sep]) ++ terminated sep gs ∧
      find (w ++ [sep]) (terminated sep fs) = some pre.length := by
  induction fs with
  | nil => cases h
  | cons f fs ih =>
    have hf := hfs f List.mem_cons_self
    rw [after] at h
    split at h
    · rename_i hsuf
      obtain rfl := Option.some.inj h
      obtain ⟨pre, rfl⟩ := hsuf
      refine ⟨pre, by simp, ?_⟩
      rw [terminated_cons, find_terminated_cons hw hf, if_pos (List.suffix_append pre w),
        List.length_append, Nat.add_sub_cancel]
    · rename_i hsuf
      obtain ⟨pre, hpre, hfind⟩ := ih (fun g hg => hfs g (List.mem_cons_of_mem f hg)) h
      refine ⟨f ++ sep :: pre, ?_, ?_⟩
      · rw [terminated_cons, hpre]
        simp
      · rw [terminated_cons, find_terminated_cons hw hf, if_neg hsuf, hfind, Option.map_some]
        simp only [List.length_append, List.length_cons, Option.some.injEq]
        omega

/-- The separator itself is found at the end of the first field. -/
theorem find_sep {sep : α} {f : List α} (l : List α) (hf : sep ∉ f) :
    find [sep] (f ++ sep :: l) = some f.length := by
  have h := find_terminated_cons (w := []) (l := l) List.not_mem_nil hf
  rwa [if_pos (List.nil_suffix), List.nil_append] at h

theorem find_sep_eq_none {sep : α} {l : List α} : find [sep] l = none ↔ sep ∉ l := by
  induction l with
  | nil => simp [find]
  | cons c l ih =>
    rw [find, List.mem_cons]
    by_cases hc : sep = c
    · simp [hc]
    · rw [if_neg (by simpa using hc), Option.map_eq_none_iff, ih]
      simp [hc]

/-- A string that is cut at each separator has none left in its pieces. -/
theorem not_mem_of_mem_splitOn {sep : α} {l f : List α} (h : f ∈ l.splitOn sep) : sep ∉ f := by
  induction l generalizing f with
  | nil =>
    rw [List.splitOn_nil, List.mem_singleton] at h
    rw [h]
    exact List.not_mem_nil
  | cons x l ih =>
    rw [List.splitOn_cons_eq_if_modifyHead] at h
    split at h
    · rcases List.mem_cons.1 h with rfl | h
      · exact List.not_mem_nil
      · exact ih h
    · rename_i hx
      obtain ⟨g, gs, hgs⟩ := List.exists_cons_of_ne_nil (List.splitOn_ne_nil sep l)
      rw [hgs, List.modifyHead_cons] at h
      rw [hgs] at ih
      rcases List.mem_cons.1 h with rfl | h
      · -- the first piece is longer by a byte that is no separator
        intro hsep
        rcases List.mem_cons.1 hsep with rfl | hsep
        · exact hx (beq_self_eq_true _)
        · exact ih List.mem_cons_self hsep
      · exact ih (List.mem_cons_of_mem g h)

end Common
