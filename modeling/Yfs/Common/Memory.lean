import Mathlib.Data.List.Basic
import Mathlib.Logic.Function.Basic

/-!
# Memory as a function of the offset

A buffer reached through a pointer is a total function from offsets to
cells: how much of it is allocated is a number kept beside it, and what
lies past that number is whatever it is. `bytesAt` reads a run of cells,
`writeAt` overwrites one, and the lemmas say how the two compose.
-/

namespace Common

variable {α : Type*}

/-- The `n` cells from offset `i` on. -/
def bytesAt (f : ℕ → α) (i : ℕ) : ℕ → List α
  | 0 => []
  | n + 1 => f i :: bytesAt f (i + 1) n

/-- The memory `f` with the run `bs` stored from offset `i` on. -/
def writeAt (f : ℕ → α) (i : ℕ) : List α → ℕ → α
  | [] => f
  | b :: bs => writeAt (Function.update f i b) (i + 1) bs

@[simp] theorem bytesAt_zero (f : ℕ → α) (i : ℕ) : bytesAt f i 0 = [] := rfl

@[simp] theorem bytesAt_succ (f : ℕ → α) (i n : ℕ) :
    bytesAt f i (n + 1) = f i :: bytesAt f (i + 1) n := rfl

@[simp] theorem writeAt_nil (f : ℕ → α) (i : ℕ) : writeAt f i [] = f := rfl

@[simp] theorem writeAt_cons (f : ℕ → α) (i : ℕ) (b : α) (bs : List α) :
    writeAt f i (b :: bs) = writeAt (Function.update f i b) (i + 1) bs := rfl

@[simp] theorem length_bytesAt (f : ℕ → α) (i n : ℕ) : (bytesAt f i n).length = n := by
  induction n generalizing i with
  | zero => rfl
  | succ n ih => simp [ih]

/-- A run is cut anywhere into two. -/
theorem bytesAt_add (f : ℕ → α) (i m n : ℕ) :
    bytesAt f i (m + n) = bytesAt f i m ++ bytesAt f (i + m) n := by
  induction m generalizing i with
  | zero => simp
  | succ m ih =>
    rw [Nat.add_right_comm, bytesAt_succ, ih, bytesAt_succ, List.cons_append,
      Nat.add_right_comm i 1 m, Nat.add_assoc i m 1]

/-- A run reads only the cells it covers. -/
theorem bytesAt_congr {f g : ℕ → α} {i n : ℕ} (h : ∀ k, i ≤ k → k < i + n → f k = g k) :
    bytesAt f i n = bytesAt g i n := by
  induction n generalizing i with
  | zero => rfl
  | succ n ih =>
    rw [bytesAt_succ, bytesAt_succ, h i (Nat.le_refl i) (by omega),
      ih fun k hk hk' => h k (by omega) (by omega)]

/-- The first cells of a run. -/
theorem take_bytesAt (f : ℕ → α) (i n k : ℕ) :
    (bytesAt f i n).take k = bytesAt f i (min k n) := by
  have h : n = min k n + (n - k) := by omega
  conv_lhs => rw [h, bytesAt_add]
  rcases Nat.le_total k n with hk | hk
  · rw [Nat.min_eq_left hk, List.take_left' (length_bytesAt f i k)]
  · rw [Nat.sub_eq_zero_of_le hk, bytesAt_zero, List.append_nil,
      List.take_of_length_le (by rw [length_bytesAt]; omega)]

/-- And the cells after them. -/
theorem drop_bytesAt (f : ℕ → α) (i n k : ℕ) :
    (bytesAt f i n).drop k = bytesAt f (i + k) (n - k) := by
  rcases Nat.le_total k n with hk | hk
  · conv_lhs => rw [← Nat.add_sub_cancel' hk, bytesAt_add]
    exact List.drop_left' (length_bytesAt f i k)
  · rw [Nat.sub_eq_zero_of_le hk, List.drop_of_length_le (by rw [length_bytesAt]; exact hk),
      bytesAt_zero]

/-- A run of equal cells. -/
theorem bytesAt_eq_replicate {f : ℕ → α} {i n : ℕ} {a : α}
    (h : ∀ k, i ≤ k → k < i + n → f k = a) : bytesAt f i n = List.replicate n a := by
  induction n generalizing i with
  | zero => rfl
  | succ n ih =>
    rw [bytesAt_succ, h i (Nat.le_refl i) (by omega), ih fun k hk hk' => h k (by omega) (by omega),
      List.replicate_succ]

/-- Reading a list laid out as a memory gives the list back. -/
theorem bytesAt_getD (l : List α) (f : ℕ → α) (i n : ℕ) (h : i + n ≤ l.length) :
    bytesAt (fun k => (l[k]?).getD (f k)) i n = (l.drop i).take n := by
  induction n generalizing i with
  | zero => simp
  | succ n ih =>
    have hi : i < l.length := by omega
    rw [bytesAt_succ, ih (i + 1) (by omega), List.drop_eq_getElem_cons hi, List.take_succ_cons]
    simp [hi]

/-- A write leaves what is below it. -/
theorem writeAt_of_lt (f : ℕ → α) {i k : ℕ} (bs : List α) (h : k < i) :
    writeAt f i bs k = f k := by
  induction bs generalizing f i with
  | nil => rfl
  | cons b bs ih =>
    rw [writeAt_cons, ih _ (by omega), Function.update_of_ne (by omega)]

/-- A write leaves what is above it. -/
theorem writeAt_of_le (f : ℕ → α) {i k : ℕ} (bs : List α) (h : i + bs.length ≤ k) :
    writeAt f i bs k = f k := by
  induction bs generalizing f i with
  | nil => rfl
  | cons b bs ih =>
    rw [List.length_cons] at h
    rw [writeAt_cons, ih _ (by omega), Function.update_of_ne (by omega)]

/-- A write hides what it covers. -/
theorem writeAt_apply_congr {f g : ℕ → α} {i k : ℕ} {bs : List α}
    (h : k < i ∨ i + bs.length ≤ k → f k = g k) : writeAt f i bs k = writeAt g i bs k := by
  induction bs generalizing f g i with
  | nil => exact h (Nat.lt_or_ge k i)
  | cons b bs ih =>
    rw [List.length_cons] at h
    refine ih fun hk => ?_
    by_cases hki : k = i
    · rw [hki, Function.update_self, Function.update_self]
    · rw [Function.update_of_ne hki, Function.update_of_ne hki]
      exact h (by omega)

/-- The same, of the whole memory. -/
theorem writeAt_congr {f g : ℕ → α} {i : ℕ} {bs : List α}
    (h : ∀ k, k < i ∨ i + bs.length ≤ k → f k = g k) : writeAt f i bs = writeAt g i bs :=
  funext fun k => writeAt_apply_congr (h k)

/-- Two adjacent writes are one. -/
theorem writeAt_append (f : ℕ → α) (i : ℕ) (as bs : List α) :
    writeAt f i (as ++ bs) = writeAt (writeAt f i as) (i + as.length) bs := by
  induction as generalizing f i with
  | nil => simp
  | cons a as ih =>
    rw [List.cons_append, writeAt_cons, ih, writeAt_cons, List.length_cons,
      show i + 1 + as.length = i + (as.length + 1) by omega]

/-- What was written is what is read. -/
theorem bytesAt_writeAt (f : ℕ → α) (i : ℕ) (bs : List α) :
    bytesAt (writeAt f i bs) i bs.length = bs := by
  induction bs generalizing f i with
  | nil => rfl
  | cons b bs ih =>
    rw [List.length_cons, bytesAt_succ, writeAt_cons, ih, writeAt_of_lt _ _ (by omega),
      Function.update_self]

/-- A run below a write is untouched by it. -/
theorem bytesAt_writeAt_of_le (f : ℕ → α) {i j n : ℕ} (bs : List α) (h : j + n ≤ i) :
    bytesAt (writeAt f i bs) j n = bytesAt f j n :=
  bytesAt_congr fun _ _ hk => writeAt_of_lt f bs (by omega)

/-- A run above a write is untouched by it. -/
theorem bytesAt_writeAt_of_ge (f : ℕ → α) {i j n : ℕ} (bs : List α) (h : i + bs.length ≤ j) :
    bytesAt (writeAt f i bs) j n = bytesAt f j n :=
  bytesAt_congr fun _ hk _ => writeAt_of_le f bs (by omega)

end Common
