import Yfs.Common.Memory
import Yfs.Common.Run
import Yfs.Files.Client

/-!
# File contents

What a file is for: an array of bytes with a length, in which a write
stores its bytes where it is told to and a gap is filled with zeros
(`ByteFile`). `followsModel_iff` compares the client's `write`, `setattr`
and `read` with it over whole runs: they agree exactly as long as no
write starts beyond the end of the file, where `yfs_client::write`
appends the bytes to what there is instead of storing them at `off`.
-/

namespace Yfs

open Common

/-! ## The abstract file -/

/-- An array of `len` bytes. The bytes past the end are no part of it. -/
structure ByteFile where
  len : ℕ
  byte : ℕ → UInt8

namespace ByteFile

/-- The empty file. -/
def empty : ByteFile := ⟨0, fun _ => 0⟩

/-- The bytes of the file, and zeros from its end on. -/
def padded (f : ByteFile) : ℕ → UInt8 := fun i => if i < f.len then f.byte i else 0

/-- Store `buf` at `off`, filling a gap with zeros. -/
def write (f : ByteFile) (off : ℕ) (buf : List UInt8) : ByteFile :=
  ⟨max f.len (off + buf.length), writeAt f.padded off buf⟩

/-- Truncate or extend with zeros to length `n`. -/
def resize (f : ByteFile) (n : ℕ) : ByteFile := ⟨n, f.padded⟩

/-- The bytes from `off` to `off + n`, or to the end. -/
def read (f : ByteFile) (n off : ℕ) : List UInt8 := bytesAt f.byte off (min (off + n) f.len - off)

/-- All bytes. -/
def content (f : ByteFile) : List UInt8 := bytesAt f.byte 0 f.len

@[simp] theorem length_content (f : ByteFile) : f.content.length = f.len := length_bytesAt _ _ _

/-- A read is a piece of the content. -/
theorem read_eq (f : ByteFile) (n off : ℕ) : f.read n off = (f.content.drop off).take n := by
  rw [content, drop_bytesAt, take_bytesAt, read, Nat.zero_add]
  congr 1
  omega

/-- A write inside the file or at its end replaces the bytes it covers. -/
theorem content_write (f : ByteFile) {off : ℕ} (buf : List UInt8) (h : off ≤ f.len) :
    (f.write off buf).content =
      f.content.take off ++ buf ++ f.content.drop (off + buf.length) := by
  have hlen : max f.len (off + buf.length) =
      off + buf.length + (f.len - (off + buf.length)) := by omega
  have hpad : ∀ i n, i + n ≤ f.len → bytesAt f.padded i n = bytesAt f.byte i n :=
    fun i n hn => bytesAt_congr fun k _ hk => if_pos (by omega)
  simp only [content, write, hlen]
  rw [take_bytesAt, drop_bytesAt, bytesAt_add, bytesAt_add, Nat.zero_add, Nat.zero_add,
    bytesAt_writeAt, bytesAt_writeAt_of_le _ _ (by omega), bytesAt_writeAt_of_ge _ _ le_rfl,
    Nat.min_eq_left h, hpad 0 off (by omega)]
  congr 1
  rcases Nat.le_total (off + buf.length) f.len with hle | hle
  · exact hpad _ _ (by omega)
  · rw [Nat.sub_eq_zero_of_le hle]
    rfl

/-- Resizing is what `std::string::resize` does. -/
theorem content_resize (f : ByteFile) (n : ℕ) :
    (f.resize n).content = stringResize f.content n := by
  have hn : n = min n f.len + (n - f.len) := by omega
  have hzero : bytesAt f.padded (0 + min n f.len) (n - f.len) = List.replicate (n - f.len) 0 :=
    bytesAt_eq_replicate fun k hk hk' => if_neg (by omega)
  simp only [content, resize, stringResize, length_bytesAt]
  rw [take_bytesAt, ← hzero]
  conv_lhs => rw [hn, bytesAt_add]
  congr 1
  exact bytesAt_congr fun k _ hk => if_pos (by omega)

end ByteFile

/-! ## Runs -/

/-- An operation on a file. -/
inductive FileOp where
  /-- `write(inum, buf, |buf|, off)`, at time `now`. -/
  | write (buf : List UInt8) (off : ℕ) (now : UInt32)
  /-- `setattr`, the unused attributes being whatever `a` holds. -/
  | setattr (size : ℕ) (a : Attr) (now : UInt32)
  /-- `read(inum, n, off)`. -/
  | read (n : UInt64) (off : Int64)

/-- No length exceeds `maxextent`. -/
def FileOp.Fits : FileOp → Prop
  | .write buf off _ => off + buf.length ≤ maxextent
  | .setattr size _ _ => size ≤ maxextent
  | .read _ _ => True

instance FileOp.decidableFits : (op : FileOp) → Decidable op.Fits
  | .write buf off _ => inferInstanceAs (Decidable (off + buf.length ≤ maxextent))
  | .setattr size _ _ => inferInstanceAs (Decidable (size ≤ maxextent))
  | .read _ _ => inferInstanceAs (Decidable True)

/-- One operation, on the file `id` of the server and on the abstract
file. -/
def fileStep (id : UInt64) (p : ExtentServer × ByteFile) : FileOp → Option (ExtentServer × ByteFile)
  | .write buf off now =>
    (YfsClient.write p.1 id buf (Int32.ofNat buf.length) (Int32.ofNat off) now).map fun r =>
      (r.1, p.2.write off buf)
  | .setattr size a now =>
    some ((YfsClient.setattr p.1 id (UInt64.ofNat size) a now).1, p.2.resize size)
  | .read n off => (YfsClient.read p.1 id n off).map fun _ => p

/-- Every read returns what the abstract file holds. -/
def ReadsAgree (id : UInt64) (p : ExtentServer × ByteFile) : Prop :=
  ∀ (n : UInt64) (off : Int64), 0 ≤ off →
    YfsClient.read p.1 id n off = some (.ok, p.2.read n.toNat off.toUInt64.toNat)

/-- A run goes through, and after each of its operations, and before the
first, every read returns what the abstract file holds. -/
def FollowsModel (id : UInt64) (p : ExtentServer × ByteFile) (ops : List FileOp) : Prop :=
  (exec (fileStep id) p ops).isSome ∧ Along (fileStep id) (ReadsAgree id) p ops

/-- A write does not start beyond the end of the file. -/
def InRange (id : UInt64) (p : ExtentServer × ByteFile) : FileOp → Prop
  | .write _ off _ => off ≤ (p.1.get id).2.length
  | _ => True

/-- The file exists and is empty. -/
def EmptyFile (id : UInt64) (s : ExtentServer) : Prop :=
  ∃ e, s.extents id = some e ∧ e.content = [] ∧ e.eAttr.size = 0

/-- The server holds the file `id`, of a length it accepts. -/
structure Holds (id : UInt64) (s : ExtentServer) (content : List UInt8) : Prop where
  extent : ∃ e, s.extents id = some e ∧ e.content = content ∧
    e.eAttr.size = UInt32.ofNat content.length
  small : content.length ≤ maxextent

section

variable {id : UInt64} {s : ExtentServer} {content : List UInt8}

theorem Holds.get (h : Holds id s content) : s.get id = (.ok, content) := by
  obtain ⟨e, he, rfl, -⟩ := h.extent
  rw [ExtentServer.get, he]

theorem holds_put (id : UInt64) (s : ExtentServer) {c : List UInt8} (hc : c.length ≤ maxextent)
    (now : UInt32) :
    (s.put id c now).2 = .ok ∧ Holds id (s.put id c now).1 c := by
  rw [ExtentServer.put, if_neg (by omega)]
  exact ⟨rfl, ⟨_, Function.update_self _ _ _, rfl, rfl⟩, hc⟩

/-- **What a write makes of the content**: it replaces bytes where it
starts inside the file, and appends else, wherever it starts. -/
theorem Holds.write (h : Holds id s content) {buf : List UInt8} {off : ℕ} (now : UInt32)
    (hfit : off + buf.length ≤ maxextent) :
    ∃ s', YfsClient.write s id buf (Int32.ofNat buf.length) (Int32.ofNat off) now =
        some (s', .ok) ∧
      Holds id s' (if content.length ≤ off then content ++ buf
        else content.take off ++ buf ++ content.drop (off + buf.length)) := by
  have hsmall := h.small
  have hbuf : stringSubstr buf 0 (toSize (Int32.ofNat buf.length)) = some buf := by
    rw [toSize_ofNat (by omega), stringSubstr, if_neg (by omega), List.drop_zero, List.take_length]
  have hoff : Int32.ofNat off ≥ Int32.ofNat content.length ↔ content.length ≤ off := by
    rw [ge_iff_le, Int32.le_iff_toInt_le, toInt_ofNat_small hsmall, toInt_ofNat_small (by omega)]
    omega
  simp only [YfsClient.write, h.get, hbuf, Option.bind_some, hoff]
  by_cases hle : content.length ≤ off
  · obtain ⟨hok, hh⟩ := holds_put id s (c := content ++ buf)
      (by rw [List.length_append]; omega) now
    refine ⟨(s.put id (content ++ buf) now).1, ?_, by rw [if_pos hle]; exact hh⟩
    simp only [hle, hok, ne_eq, not_true_eq_false, if_true, if_false, Option.map_some]
  · have hrep : stringReplace content (toSize (Int32.ofNat off))
        (toSize (Int32.ofNat buf.length)) buf =
        some (content.take off ++ buf ++ content.drop (off + buf.length)) := by
      rw [toSize_ofNat (by omega), toSize_ofNat (by omega), stringReplace, if_neg (by omega)]
    obtain ⟨hok, hh⟩ := holds_put id s
      (c := content.take off ++ buf ++ content.drop (off + buf.length))
      (by simp only [List.length_append, List.length_take, List.length_drop]; omega) now
    refine ⟨_, ?_, by rw [if_neg hle]; exact hh⟩
    simp only [hle, hrep, hok, ne_eq, not_true_eq_false, if_false, Option.map_some]

/-- A change of size resizes the content. -/
theorem Holds.setattr (h : Holds id s content) {size : ℕ} (a : Attr) (now : UInt32)
    (hfit : size ≤ maxextent) :
    Holds id (YfsClient.setattr s id (UInt64.ofNat size) a now).1 (stringResize content size) := by
  have hmax : maxextent < UInt32.size := by decide
  have hsmall := h.small
  obtain ⟨e, he, rfl, hsz⟩ := h.extent
  have hn : (UInt64.ofNat size).toUInt32 = UInt32.ofNat size := UInt64.toUInt32_ofNat' size
  have hnat : (UInt32.ofNat size).toNat = size := UInt32.toNat_ofNat_of_lt (by omega)
  have hlen : (UInt32.ofNat e.content.length).toNat = e.content.length :=
    UInt32.toNat_ofNat_of_lt (by omega)
  have hset : (YfsClient.setattr s id (UInt64.ofNat size) a now).1 =
      (s.setattr id { a with size := UInt32.ofNat size } now).1 := by
    simp only [YfsClient.setattr, hn]
    split <;> rfl
  rw [hset, ExtentServer.setattr, he]
  dsimp only
  by_cases hsame : UInt32.ofNat size = e.eAttr.size
  · -- the same size: nothing to do, and resizing would do nothing
    have heq : size = e.content.length := by
      rw [← hnat, hsame, hsz, hlen]
    have hres : stringResize e.content size = e.content := by
      rw [stringResize, heq, List.take_length, Nat.sub_self, List.replicate_zero, List.append_nil]
    rw [if_pos hsame, hres]
    exact ⟨⟨_, Function.update_self _ _ _, rfl, hsz⟩, hsmall⟩
  · rw [if_neg hsame, hnat]
    refine ⟨⟨_, Function.update_self _ _ _, rfl, ?_⟩, ?_⟩
    · rw [length_stringResize]
    · rw [length_stringResize]
      exact hfit

/-- What a read returns. -/
theorem Holds.read (h : Holds id s content) (n : UInt64) {off : Int64} (hoff : 0 ≤ off) :
    YfsClient.read s id n off =
      some (.ok, (content.drop off.toUInt64.toNat).take n.toNat) :=
  YfsClient.read_eq h.get hoff n

end

/-- The invariant: the server holds the content of the abstract file. -/
def Refines (id : UInt64) (p : ExtentServer × ByteFile) : Prop := Holds id p.1 p.2.content

section

variable {id : UInt64} {p p' : ExtentServer × ByteFile} {op : FileOp}

theorem Refines.readsAgree (h : Refines id p) : ReadsAgree id p := by
  intro n off hoff
  rw [h.read n hoff, ByteFile.read_eq]

/-- **One operation refines the abstract one**, if it is in range. -/
theorem Refines.step (h : Refines id p) (hfit : op.Fits) (hin : InRange id p op)
    (hs : fileStep id p op = some p') : Refines id p' := by
  cases op with
  | write buf off now =>
    rw [InRange, h.get, ByteFile.length_content] at hin
    obtain ⟨s', hw, hh⟩ := h.write now hfit
    rw [fileStep, hw] at hs
    cases hs
    have hc : (p.2.write off buf).content =
        if p.2.content.length ≤ off then p.2.content ++ buf
        else p.2.content.take off ++ buf ++ p.2.content.drop (off + buf.length) := by
      rw [ByteFile.content_write _ _ hin]
      split
      · rename_i hle
        rw [List.take_of_length_le hle, List.drop_of_length_le (by omega), List.append_nil]
      · rfl
    rw [Refines, hc]
    exact hh
  | setattr size a now =>
    cases hs
    rw [Refines, ByteFile.content_resize]
    exact h.setattr a now hfit
  | read n off =>
    obtain ⟨_, -, rfl⟩ := Option.map_eq_some_iff.1 hs
    exact h

/-- Every operation goes through. -/
theorem Refines.fileStep_isSome (h : Refines id p) (hfit : op.Fits) :
    ∃ p', fileStep id p op = some p' := by
  cases op with
  | write buf off now =>
    obtain ⟨s', hw, -⟩ := h.write now hfit
    exact ⟨(s', p.2.write off buf), by rw [fileStep, hw]; rfl⟩
  | setattr size a now => exact ⟨_, rfl⟩
  | read n off =>
    rw [fileStep]
    by_cases hoff : 0 ≤ off
    · rw [h.read n hoff]
      exact ⟨p, rfl⟩
    · have hneg : off < 0 := Int64.not_le.1 hoff
      simp only [YfsClient.read, h.get, hneg, ne_eq, not_true_eq_false, if_true, if_false]
      exact ⟨p, rfl⟩

/-- A write that starts beyond the end leaves the file too short. -/
theorem Refines.not_readsAgree (h : Refines id p) (hfit : op.Fits) (hout : ¬ InRange id p op)
    (hs : fileStep id p op = some p') : ¬ ReadsAgree id p' := by
  cases op with
  | write buf off now =>
    rw [InRange, h.get, ByteFile.length_content] at hout
    obtain ⟨s', hw, hh⟩ := h.write now hfit
    rw [fileStep, hw] at hs
    cases hs
    rw [ByteFile.length_content, if_pos (by omega)] at hh
    intro hagree
    -- read the whole file: it ends where the appended bytes end
    have hread := (hh.read (-1) (by decide : (0 : Int64) ≤ 0)).symm.trans
      (hagree (-1) 0 (by decide))
    have hzero : (0 : Int64).toUInt64.toNat = 0 := rfl
    have hmax : maxextent < (-1 : UInt64).toNat := by decide
    have hfit' : off + buf.length ≤ maxextent := hfit
    simp only [Option.some.injEq, Prod.mk.injEq, true_and, hzero, List.drop_zero] at hread
    have hlen := congrArg List.length hread
    simp only [List.length_take, List.length_append, ByteFile.length_content, ByteFile.read,
      ByteFile.write, length_bytesAt] at hlen
    omega
  | setattr size a now => exact absurd trivial hout
  | read n off => exact absurd trivial hout

/-- **The client's files are byte arrays exactly without holes.** For
every sequence of writes, changes of size and reads of an empty file in
which no length exceeds `maxextent`, every read returns what the byte
array holds if and only if no write starts beyond the end of the file. -/
theorem followsModel_iff {s : ExtentServer} {ops : List FileOp} (hempty : EmptyFile id s)
    (hfit : ∀ op ∈ ops, op.Fits) :
    FollowsModel id (s, .empty) ops ↔ Steps (fileStep id) (InRange id) (s, .empty) ops := by
  have hinit : Refines id (s, .empty) := by
    obtain ⟨e, he, hc, hsz⟩ := hempty
    exact ⟨⟨e, he, hc, hsz⟩, Nat.zero_le _⟩
  generalize (s, ByteFile.empty) = p at hinit
  induction ops generalizing p with
  | nil => exact ⟨fun _ => trivial, fun _ => ⟨rfl, hinit.readsAgree⟩⟩
  | cons op ops ih =>
    obtain ⟨p', hs⟩ := hinit.fileStep_isSome (hfit op List.mem_cons_self)
    have hfit' : ∀ op ∈ ops, op.Fits := fun o ho => hfit o (List.mem_cons_of_mem op ho)
    have hexec : exec (fileStep id) p (op :: ops) = exec (fileStep id) p' ops := by
      rw [exec_cons, hs, Option.bind_some]
    constructor
    · rintro ⟨hsome, -, halong⟩
      have halong' := halong p' hs
      have hin : InRange id p op := by
        by_contra hout
        exact hinit.not_readsAgree (hfit op List.mem_cons_self) hout hs halong'.head
      have hinit' := hinit.step (hfit op List.mem_cons_self) hin hs
      refine ⟨hin, fun p'' hs'' => ?_⟩
      cases hs.symm.trans hs''
      exact (ih hfit' p' hinit').1 ⟨hexec ▸ hsome, halong'⟩
    · rintro ⟨hin, hsteps⟩
      have hinit' := hinit.step (hfit op List.mem_cons_self) hin hs
      obtain ⟨hsome, halong⟩ := (ih hfit' p' hinit').2 (hsteps p' hs)
      refine ⟨hexec ▸ hsome, hinit.readsAgree, fun p'' hs'' => ?_⟩
      cases hs.symm.trans hs''
      exact halong

end

/-! ## A hole -/

/-- A server with one empty file. -/
def oneFile : ExtentServer := ((ExtentServer.new 0).put 0x80000001 [] 0).1

/-- Two bytes, one of them overwritten with two more, and the size cut
to one. -/
theorem followsModel_oneFile :
    FollowsModel 0x80000001 (oneFile, .empty)
      [.write [1, 2] 0 0, .write [3, 4] 1 0, .setattr 1 ⟨0, 0, 0, 0⟩ 0] := by
  refine (followsModel_iff ⟨_, rfl, rfl, rfl⟩ ?_).2 ⟨Nat.zero_le _, fun p hp => ?_⟩
  · intro op hop
    simp only [List.mem_cons, List.not_mem_nil, or_false] at hop
    rcases hop with rfl | rfl | rfl <;> decide
  · cases hp
    refine ⟨Nat.le_of_ble_eq_true rfl, fun p hp => ?_⟩
    cases hp
    exact ⟨trivial, fun _ _ => trivial⟩

/-- A byte written at offset 2 of the empty file ends up at offset 0. -/
theorem not_followsModel_oneFile :
    EmptyFile 0x80000001 oneFile ∧ (FileOp.write [7] 2 0).Fits ∧
      (YfsClient.write oneFile 0x80000001 [7] 1 2 0).bind
        (fun r => YfsClient.read r.1 0x80000001 10 0) = some (.ok, [7]) ∧
      (ByteFile.empty.write 2 [7]).read 10 0 = [0, 0, 7] ∧
      ¬ FollowsModel 0x80000001 (oneFile, .empty) [.write [7] 2 0] := by
  refine ⟨⟨_, rfl, rfl, rfl⟩, by decide, by decide, by decide, fun h => ?_⟩
  have hread := h.2.2 _ rfl 10 0 (by decide)
  revert hread
  decide

end Yfs
