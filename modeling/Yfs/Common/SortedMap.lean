import Mathlib.Order.Lattice
import Mathlib.Data.List.Basic

/-!
# Ordered maps

An ordered associative container with unique keys, as the list of its
entries in key order. Iteration is the list itself; assignment through
a key replaces the entry or inserts it where the order puts it. The one
law the developments need is `foldl_set_eq`: assigning the entries of a
map in their order, from the empty map, rebuilds the map.
-/

namespace Common

variable {κ β : Type*} [LinearOrder κ]

/-- Assign `v` to key `k` in a list of entries ordered by key. -/
def setEntry (k : κ) (v : β) : List (κ × β) → List (κ × β)
  | [] => [(k, v)]
  | e :: l =>
    if k < e.1 then (k, v) :: e :: l
    else if k = e.1 then (k, v) :: l
    else e :: setEntry k v l

/-- The keys of a list of entries are in strictly increasing order. -/
def KeysIncreasing (l : List (κ × β)) : Prop :=
  l.Pairwise fun e e' => e.1 < e'.1

theorem mem_setEntry {k : κ} {v : β} {l : List (κ × β)} {e : κ × β} (h : e ∈ setEntry k v l) :
    e = (k, v) ∨ e ∈ l := by
  induction l with
  | nil => exact Or.inl (List.mem_singleton.1 h)
  | cons a l ih =>
    simp only [setEntry] at h
    split at h
    · rcases List.mem_cons.1 h with h | h
      · exact Or.inl h
      · exact Or.inr h
    · split at h
      · rcases List.mem_cons.1 h with h | h
        · exact Or.inl h
        · exact Or.inr (List.mem_cons_of_mem _ h)
      · rcases List.mem_cons.1 h with h | h
        · exact Or.inr (h ▸ List.mem_cons_self)
        · exact (ih h).imp_right (List.mem_cons_of_mem _)

theorem keysIncreasing_setEntry (k : κ) (v : β) {l : List (κ × β)} (h : KeysIncreasing l) :
    KeysIncreasing (setEntry k v l) := by
  induction l with
  | nil => exact List.pairwise_singleton _ _
  | cons e l ih =>
    obtain ⟨hhead, htail⟩ := List.pairwise_cons.1 h
    simp only [setEntry]
    split
    · rename_i hlt
      refine List.pairwise_cons.2 ⟨fun e' he' => ?_, h⟩
      rcases List.mem_cons.1 he' with rfl | he'
      · exact hlt
      · exact lt_trans hlt (hhead e' he')
    · split
      · rename_i heq
        exact List.pairwise_cons.2 ⟨fun e' he' => heq ▸ hhead e' he', htail⟩
      · rename_i hnlt hne
        refine List.pairwise_cons.2 ⟨fun e' he' => ?_, ih htail⟩
        rcases mem_setEntry he' with rfl | he'
        · exact lt_of_le_of_ne (not_lt.1 hnlt) (Ne.symm hne)
        · exact hhead e' he'

/-- A key above all others is assigned at the end. -/
theorem setEntry_of_forall_lt {k : κ} {v : β} {l : List (κ × β)} (h : ∀ e ∈ l, e.1 < k) :
    setEntry k v l = l ++ [(k, v)] := by
  induction l with
  | nil => rfl
  | cons e l ih =>
    have he : e.1 < k := h e List.mem_cons_self
    rw [setEntry, if_neg (not_lt.2 (le_of_lt he)), if_neg (ne_of_gt he), ih fun e' he' =>
      h e' (List.mem_cons_of_mem _ he'), List.cons_append]

/-- An ordered map: its entries, in key order. -/
structure SortedMap (κ β : Type*) [LinearOrder κ] where
  /-- The entries, as iteration visits them. -/
  entries : List (κ × β)
  /-- Iteration visits them in key order, each key once. -/
  increasing : KeysIncreasing entries

namespace SortedMap

/-- The map with no entry. -/
def empty : SortedMap κ β := ⟨[], List.Pairwise.nil⟩

/-- Assignment through a key. -/
def set (m : SortedMap κ β) (k : κ) (v : β) : SortedMap κ β :=
  ⟨setEntry k v m.entries, keysIncreasing_setEntry k v m.increasing⟩

theorem ext_entries {m m' : SortedMap κ β} (h : m.entries = m'.entries) : m = m' := by
  cases m
  cases m'
  cases h
  rfl

/-- Assigning entries above those of a map appends them. -/
theorem entries_foldl_set (l : List (κ × β)) (m : SortedMap κ β)
    (h : KeysIncreasing (m.entries ++ l)) :
    (l.foldl (fun d e => d.set e.1 e.2) m).entries = m.entries ++ l := by
  induction l generalizing m with
  | nil => simp
  | cons e l ih =>
    have hlt : ∀ e' ∈ m.entries, e'.1 < e.1 := fun e' he' =>
      (List.pairwise_append.1 h).2.2 e' he' e List.mem_cons_self
    have hset : (m.set e.1 e.2).entries = m.entries ++ [e] := setEntry_of_forall_lt hlt
    rw [List.foldl_cons, ih _ (by rw [hset]; simpa using h), hset, List.append_assoc,
      List.singleton_append]

/-- **Assigning the entries of a map in order rebuilds it.** -/
theorem foldl_set_eq (m : SortedMap κ β) :
    m.entries.foldl (fun d e => d.set e.1 e.2) empty = m :=
  ext_entries (entries_foldl_set m.entries empty m.increasing)

end SortedMap

end Common
