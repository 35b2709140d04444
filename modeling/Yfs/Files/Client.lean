import Yfs.Files.Extent

/-!
# File operations of the client

`yfs_client::read`, `write` and `setattr` of `yfs_client.cc`. Each is a
few requests to the extent server; the requests go through as direct
calls, one client at a time. An uncaught `std::out_of_range` ends the
process, and is `none`.
-/

namespace Yfs

/-- `std::string::substr`. -/
def stringSubstr (s : List UInt8) (pos n : ℕ) : Option (List UInt8) :=
  if pos > s.length then none else some ((s.drop pos).take n)

theorem stringSubstr_zero (s : List UInt8) (n : ℕ) : stringSubstr s 0 n = some (s.take n) := by
  rw [stringSubstr, if_neg (Nat.not_lt_zero _), List.drop_zero]

/-- `std::string::replace`. -/
def stringReplace (s : List UInt8) (pos n : ℕ) (t : List UInt8) : Option (List UInt8) :=
  if pos > s.length then none else some (s.take pos ++ t ++ s.drop (pos + n))

/-- An `int` where a `size_t` is expected. -/
def toSize (x : Int32) : ℕ := x.toInt64.toUInt64.toNat

/-- A length of an extent fits into an `int`. -/
theorem toInt_ofNat_small {n : ℕ} (h : n ≤ maxextent) : (Int32.ofNat n).toInt = n := by
  have hmax : maxextent < 2 ^ 31 := by decide
  exact Int32.toInt_ofNat_of_lt (by omega)

/-- An `int` that is not negative stays itself as a `size_t`. -/
theorem toSize_of_nonneg {x : Int32} (h : 0 ≤ x) : toSize x = x.toInt.toNat := by
  have hpos : 0 ≤ x.toInt64 := by
    rw [Int64.le_iff_toInt_le, Int32.toInt_toInt64]
    exact Int32.le_iff_toInt_le.1 h
  rw [toSize, Int64.toNat_toUInt64_of_le hpos, Int64.toNatClampNeg, Int32.toInt_toInt64]

/-- So does a length of an extent. -/
theorem toSize_ofNat {n : ℕ} (h : n ≤ maxextent) : toSize (Int32.ofNat n) = n := by
  have hint := toInt_ofNat_small h
  have hpos : 0 ≤ Int32.ofNat n := by
    rw [Int32.le_iff_toInt_le, hint]
    exact Int.natCast_nonneg n
  rw [toSize_of_nonneg hpos, hint, Int.toNat_natCast]

namespace YfsClient

/-- `yfs_client::read`: the status, and `retString`. -/
def read (s : ExtentServer) (inum : UInt64) (readSize : UInt64) (offset : Int64) :
    Option (Status × List UInt8) :=
  let content := s.get inum
  if content.1 ≠ .ok then some (.ioerr, [])
  else if offset < 0 then some (.ioerr, [])
  else if offset.toUInt64.toNat ≥ content.2.length then some (.ok, [])
  else (stringSubstr content.2 offset.toUInt64.toNat readSize.toNat).map fun r => (.ok, r)

/-- What `read` returns, of the content of the file. -/
theorem read_eq {s : ExtentServer} {inum : UInt64} {content : List UInt8} {offset : Int64}
    (hget : s.get inum = (.ok, content)) (hoff : 0 ≤ offset) (n : UInt64) :
    read s inum n offset = some (.ok, (content.drop offset.toUInt64.toNat).take n.toNat) := by
  have hneg : ¬ offset < 0 := Int64.not_lt.2 hoff
  simp only [read, hget, ne_eq, not_true_eq_false, if_false, hneg]
  by_cases hle : offset.toUInt64.toNat ≥ content.length
  · rw [if_pos hle, List.drop_of_length_le hle, List.take_nil]
  · rw [if_neg hle, stringSubstr, if_neg (by omega)]
    rfl

/-- `yfs_client::write`. -/
def write (s : ExtentServer) (fileID : UInt64) (buf : List UInt8) (size off : Int32)
    (now : UInt32) : Option (ExtentServer × Status) :=
  let content := s.get fileID
  if content.1 ≠ .ok then some (s, .ioerr)
  else
    (stringSubstr buf 0 (toSize size)).bind fun b =>
      let contentSize := Int32.ofNat content.2.length
      let content' :=
        if off ≥ contentSize then some (content.2 ++ b)
        else stringReplace content.2 (toSize off) (toSize size) b
      content'.map fun c =>
        let r := s.put fileID c now
        if r.2 ≠ .ok then (r.1, .ioerr) else (r.1, .ok)

/-- `yfs_client::setattr`. Only `fin.size` is looked at, and narrowed;
the other fields of the attributes sent are whatever `a` held. -/
def setattr (s : ExtentServer) (fileID : UInt64) (finSize : UInt64) (a : Attr) (now : UInt32) :
    ExtentServer × Status :=
  let r := s.setattr fileID { a with size := finSize.toUInt32 } now
  if r.2 ≠ .ok then (r.1, .ioerr) else (r.1, .ok)

end YfsClient

end Yfs
