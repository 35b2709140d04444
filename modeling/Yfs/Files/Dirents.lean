import Yfs.Files.Fuse

/-!
# The bytes of a directory

`fuseserver_readdir` lays out all entries of a directory in one buffer and
replies with a piece of it. What is in the bytes of an entry is libfuse's;
`DirentLayout` is what is relied on: each entry has its size, which is
positive, and whoever reads a reply finds in it the entries that it has as
a whole, with the offsets that were recorded. `parse_take_layout` says what
is found in a piece that begins where an entry does. `fuseDirents` is the
layout of `struct fuse_dirent`.
-/

namespace Yfs

open Common

/-- An entry as it is found in a reply. -/
structure Dirent where
  name : List UInt8
  ino : UInt64
  off : ℕ
deriving DecidableEq

/-- What an entry is, without its offset. -/
def Dirent.entry (d : Dirent) : List UInt8 × UInt64 := (d.name, d.ino)

/-- What is relied on of libfuse and of `parse`, which finds the complete
entries in a reply. Names are shorter than 2³² bytes, as there are 32 bits
for their length, and offsets are a signed 64-bit number. -/
structure DirentLayout (lib : LibFuse) (parse : List UInt8 → List Dirent) : Prop where
  size_pos : ∀ n, 0 < lib.direntSize n
  size_le : ∀ n, lib.direntSize n ≤ n + 32
  length_addDirent : ∀ name ino off,
    (lib.addDirent name ino off).length = lib.direntSize name.length
  parse_addDirent : ∀ name ino off rest, name.length < 2 ^ 32 → off < 2 ^ 63 →
    parse (lib.addDirent name ino off ++ rest) = ⟨name, ino, off⟩ :: parse rest
  parse_cut : ∀ name ino off k, name.length < 2 ^ 32 → k < lib.direntSize name.length →
    parse ((lib.addDirent name ino off).take k) = []

/-! ## The buffer -/

section

variable {lib : LibFuse}

/-- The size of the entries. -/
def direntsSize (lib : LibFuse) (es : List (List UInt8 × UInt64)) : ℕ :=
  (es.map fun e => lib.direntSize e.1.length).sum

/-- The entries one after the other, from an offset on. -/
def layout (lib : LibFuse) : ℕ → List (List UInt8 × UInt64) → List UInt8
  | _, [] => []
  | off, e :: es =>
    let off' := off + lib.direntSize e.1.length
    lib.addDirent e.1 e.2 off' ++ layout lib off' es

/-- What is recorded in them. -/
def records (lib : LibFuse) : ℕ → List (List UInt8 × UInt64) → List Dirent
  | _, [] => []
  | off, e :: es =>
    let off' := off + lib.direntSize e.1.length
    ⟨e.1, e.2, off'⟩ :: records lib off' es

/-- A pair of a listing, as `dirbuf_add` takes it. -/
def shown (e : List UInt8 × UInt64) : List UInt8 × UInt64 := (cString e.1, e.2)

theorem direntsSize_cons (e : List UInt8 × UInt64) (es : List (List UInt8 × UInt64)) :
    direntsSize lib (e :: es) = lib.direntSize e.1.length + direntsSize lib es := rfl

/-- The sizes of two lists add up. -/
theorem direntsSize_append (es es' : List (List UInt8 × UInt64)) :
    direntsSize lib (es ++ es') = direntsSize lib es + direntsSize lib es' := by
  unfold direntsSize
  rw [List.map_append, List.sum_append]

/-- What the loop of `fuseserver_readdir` leaves. -/
theorem foldl_dirbufAdd (es : List (List UInt8 × UInt64)) (b : Dirbuf) :
    es.foldl (fun b e => dirbufAdd lib b e.1 e.2) b =
      ⟨b.p ++ layout lib b.size (es.map shown), b.size + direntsSize lib (es.map shown)⟩ := by
  induction es generalizing b with
  | nil => simp [layout, direntsSize]
  | cons e es ih =>
    rw [List.foldl_cons, ih, List.map_cons, direntsSize_cons]
    unfold dirbufAdd
    simp only [layout, shown, List.append_assoc, Nat.add_assoc]

/-- The records of a listing are of its entries. -/
theorem records_entry (off : ℕ) (es : List (List UInt8 × UInt64)) :
    (records lib off es).map Dirent.entry = es := by
  induction es generalizing off with
  | nil => rfl
  | cons e es ih =>
    show (e.1, e.2) :: (records lib (off + lib.direntSize e.1.length) es).map Dirent.entry = e :: es
    rw [ih]

/-- The last offset recorded is that of the end. -/
theorem getLast?_records (off : ℕ) {es : List (List UInt8 × UInt64)} (h : es ≠ []) :
    (records lib off es).getLast?.map Dirent.off = some (off + direntsSize lib es) := by
  induction es generalizing off with
  | nil => exact absurd rfl h
  | cons e es ih =>
    rw [direntsSize_cons, ← Nat.add_assoc]
    rcases es with _ | ⟨e', es⟩
    · rfl
    · exact ih (off + lib.direntSize e.1.length) (List.cons_ne_nil e' es)

section

variable {parse : List UInt8 → List Dirent} (h : DirentLayout lib parse)

include h

/-- The buffer from the end of some entries on is that of the others. -/
theorem drop_layout (off : ℕ) (es es' : List (List UInt8 × UInt64)) :
    (layout lib off (es ++ es')).drop (direntsSize lib es) =
      layout lib (off + direntsSize lib es) es' := by
  induction es generalizing off with
  | nil => rfl
  | cons e es ih =>
    show (lib.addDirent _ _ _ ++
      layout lib (off + lib.direntSize e.1.length) (es ++ es')).drop _ = _
    rw [direntsSize_cons, ← List.drop_drop, List.drop_left' (h.length_addDirent ..), ih,
      Nat.add_assoc]

theorem parse_nil : parse [] = [] := by
  have hcut := h.parse_cut [] 0 0 0 (by decide) (h.size_pos 0)
  rwa [List.take_zero] at hcut

/-- **What is found in a piece of the buffer**: the entries from its start
on that it has as a whole, one at least where there is room for it. -/
theorem parse_take_layout (m off : ℕ) (es : List (List UInt8 × UInt64))
    (hname : ∀ e ∈ es, e.1.length < 2 ^ 32) (hoff : off + direntsSize lib es < 2 ^ 63) :
    ∃ j ≤ es.length, parse ((layout lib off es).take m) = records lib off (es.take j) ∧
      ((∀ e ∈ es.head?, lib.direntSize e.1.length ≤ m) → es ≠ [] → 0 < j) := by
  induction es generalizing off m with
  | nil =>
    refine ⟨0, Nat.le_refl 0, ?_, fun _ hne => absurd rfl hne⟩
    show parse (([] : List UInt8).take m) = []
    rw [List.take_nil, parse_nil h]
  | cons e es ih =>
    have he := hname e List.mem_cons_self
    rw [direntsSize_cons] at hoff
    show ∃ j ≤ (e :: es).length,
      parse ((lib.addDirent e.1 e.2 (off + lib.direntSize e.1.length) ++
        layout lib (off + lib.direntSize e.1.length) es).take m) = _ ∧ _
    rcases Nat.lt_or_ge m (lib.direntSize e.1.length) with hlt | hge
    · -- the piece ends in the first entry
      refine ⟨0, Nat.zero_le _, ?_, fun hroom _ => absurd (hroom e rfl) (by omega)⟩
      rw [List.take_append_of_le_length (by rw [h.length_addDirent]; omega),
        h.parse_cut _ _ _ _ he hlt]
      rfl
    · obtain ⟨j, hj, hparse, -⟩ := ih (m - lib.direntSize e.1.length)
        (off + lib.direntSize e.1.length) (fun d hd => hname d (List.mem_cons_of_mem e hd))
        (by omega)
      refine ⟨j + 1, Nat.succ_le_succ hj, ?_, fun _ _ => Nat.succ_pos j⟩
      have htake : (lib.addDirent e.1 e.2 (off + lib.direntSize e.1.length) ++
          layout lib (off + lib.direntSize e.1.length) es).take m =
          lib.addDirent e.1 e.2 (off + lib.direntSize e.1.length) ++
            (layout lib (off + lib.direntSize e.1.length) es).take
              (m - lib.direntSize e.1.length) := by
        rw [List.take_append, h.length_addDirent,
          List.take_of_length_le (by rw [h.length_addDirent]; exact hge)]
      rw [htake, h.parse_addDirent _ _ _ _ he (by omega), hparse]
      rfl

end

end

/-! ## `struct fuse_dirent` -/

/-- The `k` bytes of a number, least significant first. -/
def leBytes : ℕ → ℕ → List UInt8
  | 0, _ => []
  | k + 1, n => UInt8.ofNat n :: leBytes k (n / 256)

/-- The number of some bytes. -/
def leValue (b : List UInt8) : ℕ := b.foldr (fun c v => c.toNat + 256 * v) 0

theorem length_leBytes (k n : ℕ) : (leBytes k n).length = k := by
  induction k generalizing n with
  | zero => rfl
  | succ k ih =>
    show (leBytes k (n / 256)).length + 1 = k + 1
    rw [ih]

/-- The bytes of a number that fits give it back. -/
theorem leValue_leBytes {k n : ℕ} (h : n < 256 ^ k) : leValue (leBytes k n) = n := by
  induction k generalizing n with
  | zero => exact (Nat.lt_one_iff.1 h).symm
  | succ k ih =>
    have hdiv : n / 256 < 256 ^ k := by
      rw [Nat.pow_succ] at h
      omega
    show (UInt8.ofNat n).toNat + 256 * leValue (leBytes k (n / 256)) = n
    rw [ih hdiv, UInt8.toNat_ofNat']
    omega

/-- `FUSE_DIRENT_SIZE`: 24 bytes and the name, filled up to a multiple of
8. -/
def fuseDirentSize (n : ℕ) : ℕ := (24 + n + 7) / 8 * 8

/-- The members in front of the name: the inode, the offset, the length of
the name and the type, which is 0 as `st_mode` is. -/
def direntHeader (namelen : ℕ) (ino : UInt64) (off : ℕ) : List UInt8 :=
  leBytes 8 ino.toNat ++ (leBytes 8 off ++ (leBytes 4 namelen ++ leBytes 4 0))

/-- `fuse_dirent_size` and `fuse_add_dirent`. -/
def fuseDirents : LibFuse where
  direntSize := fuseDirentSize
  addDirent name ino off :=
    direntHeader name.length ino off ++
      (name ++ List.replicate (fuseDirentSize name.length - 24 - name.length) 0)

/-- The complete entries in a reply, one after the other. -/
def readDirents : ℕ → List UInt8 → List Dirent
  | 0, _ => []
  | fuel + 1, b =>
    let namelen := leValue ((b.drop 16).take 4)
    if b.length < 24 ∨ b.length < fuseDirentSize namelen then []
    else
      ⟨(b.drop 24).take namelen, UInt64.ofNat (leValue (b.take 8)), leValue ((b.drop 8).take 8)⟩ ::
        readDirents fuel (b.drop (fuseDirentSize namelen))

def parseDirents (b : List UInt8) : List Dirent := readDirents b.length b

theorem length_direntHeader (n : ℕ) (ino : UInt64) (off : ℕ) :
    (direntHeader n ino off).length = 24 := by
  unfold direntHeader
  simp only [List.length_append, length_leBytes]

section

variable {n off : ℕ} (ino : UInt64) (rest : List UInt8)

/-- What comes after the inode in a header. -/
theorem drop_direntHeader : (direntHeader n ino off ++ rest).drop 8 =
    leBytes 8 off ++ (leBytes 4 n ++ (leBytes 4 0 ++ rest)) := by
  unfold direntHeader
  rw [List.append_assoc, List.drop_left' (length_leBytes 8 _)]
  simp only [List.append_assoc]

/-- The members are found where they are, whatever comes after them. -/
theorem namelen_direntHeader (hn : n < 2 ^ 32) :
    leValue (((direntHeader n ino off ++ rest).drop 16).take 4) = n := by
  rw [show 16 = 8 + 8 from rfl, ← List.drop_drop, drop_direntHeader,
    List.drop_left' (length_leBytes 8 _), List.take_left' (length_leBytes 4 _), leValue_leBytes hn]

theorem ino_direntHeader :
    UInt64.ofNat (leValue ((direntHeader n ino off ++ rest).take 8)) = ino := by
  unfold direntHeader
  rw [List.append_assoc, List.take_left' (length_leBytes 8 _),
    leValue_leBytes (show ino.toNat < 256 ^ 8 from ino.toNat_lt), UInt64.ofNat_toNat]

theorem off_direntHeader (hoff : off < 2 ^ 64) :
    leValue (((direntHeader n ino off ++ rest).drop 8).take 8) = off := by
  rw [drop_direntHeader, List.take_left' (length_leBytes 8 _), leValue_leBytes hoff]

end

/-- An entry is padded by less than eight bytes. -/
theorem fuseDirentSize_bounds (n : ℕ) :
    24 + n ≤ fuseDirentSize n ∧ fuseDirentSize n ≤ 24 + n + 7 := by
  unfold fuseDirentSize
  omega

/-- An entry that is there in full is read, and the rest after it. -/
theorem readDirents_succ (fuel : ℕ) (b : List UInt8) :
    readDirents (fuel + 1) b =
      if b.length < 24 ∨ b.length < fuseDirentSize (leValue ((b.drop 16).take 4)) then []
      else
        ⟨(b.drop 24).take (leValue ((b.drop 16).take 4)), UInt64.ofNat (leValue (b.take 8)),
            leValue ((b.drop 8).take 8)⟩ ::
          readDirents fuel (b.drop (fuseDirentSize (leValue ((b.drop 16).take 4)))) := rfl

theorem readDirents_nil (fuel : ℕ) : readDirents fuel [] = [] := by
  rcases fuel with _ | fuel
  · rfl
  · rw [readDirents_succ, if_pos (.inl (by decide))]

/-- A byte of fuel for each byte is enough. -/
theorem readDirents_fuel {fuel : ℕ} : ∀ {fuel' : ℕ} {b : List UInt8}, b.length ≤ fuel →
    b.length ≤ fuel' → readDirents fuel b = readDirents fuel' b := by
  induction fuel with
  | zero =>
    intro fuel' b h _
    rw [List.length_eq_zero_iff.1 (Nat.le_zero.1 h), readDirents_nil, readDirents_nil]
  | succ fuel ih =>
    intro fuel' b h h'
    rcases fuel' with _ | fuel'
    · rw [List.length_eq_zero_iff.1 (Nat.le_zero.1 h'), readDirents_nil, readDirents_nil]
    · rw [readDirents_succ, readDirents_succ]
      split
      · rfl
      · have hsize := fuseDirentSize_bounds (leValue ((b.drop 16).take 4))
        have hdrop : (b.drop (fuseDirentSize (leValue ((b.drop 16).take 4)))).length =
            b.length - fuseDirentSize (leValue ((b.drop 16).take 4)) := List.length_drop
        refine congrArg _ (ih ?_ ?_)
        · omega
        · omega

theorem length_addDirent (name : List UInt8) (ino : UInt64) (off : ℕ) :
    (fuseDirents.addDirent name ino off).length = fuseDirentSize name.length := by
  have hsize := fuseDirentSize_bounds name.length
  show (direntHeader _ _ _ ++ (name ++ List.replicate _ 0)).length = _
  rw [List.length_append, List.length_append, length_direntHeader, List.length_replicate]
  omega

/-- The kernel reads the entry that libfuse writes. -/
theorem readDirents_addDirent {name : List UInt8} {off : ℕ} (ino : UInt64) (rest : List UInt8)
    (hname : name.length < 2 ^ 32) (hoff : off < 2 ^ 63) (fuel : ℕ) :
    readDirents (fuel + 1) (fuseDirents.addDirent name ino off ++ rest) =
      ⟨name, ino, off⟩ :: readDirents fuel rest := by
  have hlen := length_addDirent name ino off
  have hsize := fuseDirentSize_bounds name.length
  have hsplit : fuseDirents.addDirent name ino off ++ rest = direntHeader name.length ino off ++
      (name ++ (List.replicate (fuseDirentSize name.length - 24 - name.length) 0 ++ rest)) := by
    show (direntHeader _ _ _ ++ (name ++ List.replicate _ 0)) ++ rest = _
    simp only [List.append_assoc]
  have hshort : ¬ ((fuseDirents.addDirent name ino off ++ rest).length < 24 ∨
      (fuseDirents.addDirent name ino off ++ rest).length < fuseDirentSize name.length) := by
    rw [List.length_append, hlen]
    omega
  have hn : leValue (((fuseDirents.addDirent name ino off ++ rest).drop 16).take 4) =
      name.length := by
    rw [hsplit, namelen_direntHeader _ _ hname]
  rw [readDirents_succ, hn, if_neg hshort, List.drop_left' hlen, hsplit,
    ino_direntHeader, off_direntHeader _ _ (by omega), List.drop_left' (length_direntHeader ..),
    List.take_left' rfl]

/-- An entry that is cut off is not read. -/
theorem readDirents_cut {name : List UInt8} {off k : ℕ} (ino : UInt64)
    (hname : name.length < 2 ^ 32) (hk : k < fuseDirentSize name.length) (fuel : ℕ) :
    readDirents fuel ((fuseDirents.addDirent name ino off).take k) = [] := by
  rcases fuel with _ | fuel
  · rfl
  have hlen : ((fuseDirents.addDirent name ino off).take k).length = k := by
    rw [List.length_take, length_addDirent]
    omega
  rw [readDirents_succ, hlen]
  rcases Nat.lt_or_ge k 24 with hlt | hge
  · exact if_pos (.inl hlt)
  · -- the length of the name is there
    refine if_pos (.inr ?_)
    have hsplit : (fuseDirents.addDirent name ino off).take k =
        direntHeader name.length ino off ++
          (name ++ List.replicate (fuseDirentSize name.length - 24 - name.length) 0).take
            (k - 24) := by
      show (direntHeader _ _ _ ++ _).take k = _
      rw [List.take_append, length_direntHeader,
        List.take_of_length_le (by rw [length_direntHeader]; exact hge)]
    rw [hsplit, namelen_direntHeader _ _ hname]
    exact hk

/-- **`struct fuse_dirent` is such a layout.** -/
theorem direntLayout_fuseDirents : DirentLayout fuseDirents parseDirents where
  size_pos n := by
    have := fuseDirentSize_bounds n
    show 0 < fuseDirentSize n
    omega
  size_le n := by
    have := fuseDirentSize_bounds n
    show fuseDirentSize n ≤ n + 32
    omega
  length_addDirent := length_addDirent
  parse_addDirent name ino off rest hname hoff := by
    have hsize := fuseDirentSize_bounds name.length
    have hlen := length_addDirent name ino off
    unfold parseDirents
    rw [readDirents_fuel (Nat.le_refl _) (Nat.le_succ _), readDirents_addDirent ino rest hname hoff]
    refine congrArg _ (readDirents_fuel ?_ (Nat.le_refl _))
    rw [List.length_append]
    omega
  parse_cut name ino off k hname hk := readDirents_cut ino hname hk _

end Yfs
