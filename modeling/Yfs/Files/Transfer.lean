import Yfs.Files.Entries
import Yfs.Files.Interleaving
import Yfs.Files.Store

/-!
# Bytes and sizes on their way from FUSE

What `fuseserver_write` is given becomes a string, which ends at the first
zero byte, but it replaces as many bytes as were given. An offset is
narrowed to an `int` and a size to an `unsigned int`. `written_iff` says
that a write is read back, with nothing moved, exactly when no zero byte
is among its bytes; `narrowed_iff` says when the upper half that is lost
of an offset or a size does no harm.
-/

namespace Yfs

open Common

/-! ## Numbers -/

theorem toSize_toInt32 {size : UInt64} (h : size.toNat < 2 ^ 31) :
    toSize size.toUInt32.toInt32 = size.toNat := by
  have hnat : size.toUInt32.toNat = size.toNat := by
    rw [UInt64.toNat_toUInt32]
    omega
  have hint : size.toUInt32.toInt32.toInt = size.toNat := by
    rw [← hnat]
    exact BitVec.toInt_eq_toNat_of_lt (by change 2 * size.toUInt32.toNat < 2 ^ 32; omega)
  have hpos : 0 ≤ size.toUInt32.toInt32 := by
    rw [Int32.le_iff_toInt_le, hint]
    exact Int.natCast_nonneg _
  rw [toSize_of_nonneg hpos, hint, Int.toNat_natCast]

theorem toNat_toUInt64 {off : Int64} (h : 0 ≤ off) : (off.toUInt64.toNat : ℤ) = off.toInt := by
  have hint : 0 ≤ off.toInt := Int64.le_iff_toInt_le.1 h
  rw [Int64.toNat_toUInt64_of_le h, Int64.toNatClampNeg]
  omega

/-- A negative `int` is a huge `size_t`. -/
theorem toSize_of_neg {x : Int32} (h : x < 0) : 2 ^ 63 ≤ toSize x := by
  have hneg : x.toInt < 0 := Int32.lt_iff_toInt_lt.1 h
  have hlow := Int32.le_toInt x
  have hnat : (x.toInt64.toBitVec.toNat : ℤ) = x.toInt + 2 ^ 64 := by
    have hx : x.toInt64.toBitVec.toInt = x.toInt := Int32.toInt_toInt64 x
    rw [BitVec.toInt_eq_toNat_cond] at hx
    split at hx
    · omega
    · omega
  have hsize : toSize x = x.toInt64.toBitVec.toNat := rfl
  omega

/-! ## Bytes -/

/-- What is passed as a string is all there, exactly when there is no zero
byte in it. -/
theorem take_cString_eq_iff (buf : List UInt8) (n : ℕ) :
    (cString buf).take n = buf.take n ↔ 0 ∉ buf.take n := by
  constructor
  · intro h hz
    rw [← h] at hz
    have := List.mem_takeWhile_imp (List.mem_of_mem_take hz)
    exact absurd rfl (of_decide_eq_true this)
  · intro h
    induction buf generalizing n with
    | nil => rfl
    | cons x buf ih =>
      cases n with
      | zero => rw [List.take_zero, List.take_zero]
      | succ n =>
        rw [List.take_succ_cons, List.mem_cons, not_or] at h
        have hx : x ≠ 0 := fun hx => h.1 hx.symm
        have hcons : cString (x :: buf) = x :: cString buf :=
          List.takeWhile_cons_of_pos (decide_eq_true hx)
        rw [hcons, List.take_succ_cons, List.take_succ_cons, ih n h.2]

theorem length_take_cString_le (buf : List UInt8) (n : ℕ) :
    ((cString buf).take n).length ≤ n := by
  rw [List.length_take]
  omega

/-- Where the bytes are put: `b` stands for the `n` bytes from `o` on. -/
def replaced (v b : List UInt8) (o n : ℕ) : List UInt8 := v.take o ++ b ++ v.drop (o + n)

section

variable {v v' : List UInt8} {o : ℕ}

theorem length_replaced (b : List UInt8) (n : ℕ) (ho : o ≤ v.length) :
    (replaced v b o n).length = o + b.length + (v.length - (o + n)) := by
  rw [replaced, List.length_append, List.length_append, List.length_drop, List.length_take]
  omega

theorem drop_replaced (b : List UInt8) (n : ℕ) (ho : o ≤ v.length) :
    (replaced v b o n).drop o = b ++ v.drop (o + n) := by
  rw [replaced, List.append_assoc, List.drop_left' (List.length_take_of_le ho)]

theorem getElem?_replaced_of_lt {i : ℕ} (b : List UInt8) (n : ℕ) (ho : o ≤ v.length) (hi : i < o) :
    (replaced v b o n)[i]? = v[i]? := by
  rw [replaced, List.append_assoc, List.getElem?_append_left (by rw [List.length_take]; omega),
    List.getElem?_take_of_lt hi]

/-- As many bytes as they stand for: those behind stay. -/
theorem getElem?_replaced_of_le {b : List UInt8} {n i : ℕ} (ho : o ≤ v.length) (hb : b.length = n)
    (hi : o + n ≤ i) : (replaced v b o n)[i]? = v[i]? := by
  have hlen : (v.take o ++ b).length = o + n := by
    rw [List.length_append, List.length_take_of_le ho, hb]
  rw [replaced, List.getElem?_append_right (by omega), hlen, List.getElem?_drop,
    Nat.add_sub_cancel' hi]

end

section

variable {s s' : ExtentServer} {ino : UInt64} {v v' buf : List UInt8}

/-- What `write` makes of a content. -/
theorem putsBack_write_cases {size off : Int32}
    (h : (ClientOp.write ino buf size off).putsBack v = some v') :
    (Int32.ofNat v.length ≤ off ∧ v' = v ++ buf.take (toSize size)) ∨
      (off < Int32.ofNat v.length ∧ toSize off ≤ v.length ∧
        v' = replaced v (buf.take (toSize size)) (toSize off) (toSize size)) := by
  rw [ClientOp.putsBack, stringSubstr_zero, Option.bind_some] at h
  split at h
  · rename_i hge
    exact .inl ⟨hge, (Option.some.inj h).symm⟩
  · rename_i hlt
    rw [stringReplace, Option.ite_none_left_eq_some] at h
    exact .inr ⟨Int32.not_le.1 hlt, Nat.not_lt.1 h.1, (Option.some.inj h.2).symm⟩

/-- `fuseserver_write`, on a file that there is. -/
theorem fuseserverWrite_eq (hget : s.get ino = (.ok, v)) (w : Ambient) (size : UInt64)
    (off : Int64) :
    fuseserverWrite s w ino buf size off =
      ((ClientOp.write ino (cString buf) size.toUInt32.toInt32 off.toInt32).putsBack v).map
        fun v' =>
          if v'.length ≤ maxextent then ((s.put ino v' w.now).1, [.write size])
          else (s, [.err .enosys]) := by
  rw [fuseserverWrite, write_eq hget, Option.map_map]
  congr 1
  funext v'
  simp only [Function.comp_apply]
  by_cases hlen : v'.length ≤ maxextent
  · rw [if_pos hlen, if_neg (by simp), if_pos hlen]
  · rw [if_neg hlen, if_pos (by simp), if_neg hlen, ExtentServer.put, if_pos (by omega)]

/-- A write that succeeds, at an offset in the file and within the limit,
stands for the bytes from there on. -/
theorem putsBack_in_range {size : UInt64} {off : Int64} {b : List UInt8} (hoff : 0 ≤ off)
    (hle : off.toUInt64.toNat ≤ v.length) (hfit : off.toUInt64.toNat + size.toNat ≤ maxextent)
    (h : (ClientOp.write ino b size.toUInt32.toInt32 off.toInt32).putsBack v = some v')
    (hlen : v'.length ≤ maxextent) :
    v' = replaced v (b.take size.toNat) off.toUInt64.toNat size.toNat := by
  have hmax : maxextent < 2 ^ 30 := by decide
  have hnat := toNat_toUInt64 hoff
  have hsize : toSize size.toUInt32.toInt32 = size.toNat := toSize_toInt32 (by omega)
  have hint : off.toInt32.toInt = off.toInt := by
    rw [Int64.toInt_toInt32, Int.bmod_eq_of_le (by omega) (by omega)]
  have hpos : 0 ≤ off.toInt32 := by
    rw [Int32.le_iff_toInt_le, hint]
    exact Int64.le_iff_toInt_le.1 hoff
  have ho : toSize off.toInt32 = off.toUInt64.toNat := by
    rw [toSize_of_nonneg hpos, hint]
    omega
  have hcases := putsBack_write_cases h
  rw [hsize, ho] at hcases
  rcases hcases with ⟨hge, rfl⟩ | ⟨-, -, hv'⟩
  · -- it appends: the file is short, and the write is at its end
    rw [List.length_append] at hlen
    rw [Int32.le_iff_toInt_le, hint, Int32.toInt_ofNat_of_lt (by omega)] at hge
    have heq : off.toUInt64.toNat = v.length := by omega
    rw [replaced, heq, List.take_length, List.drop_of_length_le (by omega), List.append_nil]
  · exact hv'

end

/-- The bytes are there, and no others are changed or moved, exactly when
none of them is zero. -/
theorem replaced_cString_iff {v buf : List UInt8} {o n : ℕ} (ho : o ≤ v.length)
    (hbuf : n ≤ buf.length) :
    (((replaced v ((cString buf).take n) o n).drop o).take n = buf.take n ∧
        ∀ i, i < o ∨ o + n ≤ i → (replaced v ((cString buf).take n) o n)[i]? = v[i]?) ↔
      0 ∉ buf.take n := by
  have hb := length_take_cString_le buf n
  rw [← take_cString_eq_iff, drop_replaced _ n ho]
  constructor
  · rintro ⟨hread, hout⟩
    by_cases hshort : ((cString buf).take n).length < n
    · exfalso
      have hlen := length_replaced ((cString buf).take n) n ho
      rcases Nat.lt_or_ge (o + n) v.length with hlt | hge
      · -- what is behind has moved up, and the last byte is gone
        have hlast := hout (v.length - 1) (.inr (by omega))
        rw [List.getElem?_eq_none (by omega), eq_comm, List.getElem?_eq_none_iff] at hlast
        omega
      · -- there is nothing behind that could take their place
        have hread' := congrArg List.length hread
        rw [List.drop_of_length_le hge, List.append_nil, List.length_take,
          List.length_take_of_le hbuf] at hread'
        omega
    · rw [List.take_left' (by omega)] at hread
      exact hread
  · intro h
    have hlen : ((cString buf).take n).length = n := by
      rw [h, List.length_take_of_le hbuf]
    refine ⟨by rw [List.take_left' hlen, h], fun i hi => ?_⟩
    rcases hi with hi | hi
    · exact getElem?_replaced_of_lt _ n ho hi
    · exact getElem?_replaced_of_le ho hlen hi

/-- What was written is read back, and the bytes of `v` outside of it are
where they were. -/
def WrittenBack (s' : ExtentServer) (ino : UInt64) (v buf : List UInt8) (size : UInt64)
    (off : Int64) : Prop :=
  fuseserverRead s' ino size off = some [.buf (buf.take size.toNat)] ∧
    ∃ v', s'.contents ino = some v' ∧
      ∀ i, i < off.toUInt64.toNat ∨ off.toUInt64.toNat + size.toNat ≤ i → v'[i]? = v[i]?

/-- **When a write is read back.** -/
theorem written_iff (s s' : ExtentServer) (w : Ambient) (ino : UInt64) (v buf : List UInt8)
    (size : UInt64) (off : Int64) (hv : s.contents ino = some v) (hoff : 0 ≤ off)
    (hle : off.toUInt64.toNat ≤ v.length) (hfit : off.toUInt64.toNat + size.toNat ≤ maxextent)
    (hbuf : size.toNat ≤ buf.length)
    (hw : fuseserverWrite s w ino buf size off = some (s', [.write size])) :
    WrittenBack s' ino v buf size off ↔ 0 ∉ buf.take size.toNat := by
  rw [fuseserverWrite_eq (ExtentServer.get_eq_of_contents hv)] at hw
  obtain ⟨v', hback, hw⟩ := Option.map_eq_some_iff.1 hw
  split at hw
  · rename_i hlen
    cases hw
    obtain rfl := putsBack_in_range hoff hle hfit hback hlen
    have hget := @ExtentServer.get_put_self s ino _ w.now hlen
    have hcontents := ExtentServer.contents_put s ino (replaced v ((cString buf).take size.toNat)
      off.toUInt64.toNat size.toNat) w.now
    rw [if_pos hlen] at hcontents
    rw [← replaced_cString_iff hle hbuf, WrittenBack, hcontents, Function.update_self,
      fuseserverRead, YfsClient.read_eq hget hoff]
    simp
  · cases hw

/-- One file, with the content `v`. -/
def fileWith (v : List UInt8) : ExtentServer := ((ExtentServer.new 0).put 0x80000005 v 0).1

theorem reachable_fileWith (v : List UInt8) : (fileWith v).Reachable :=
  ⟨0, [.put 0x80000005 v 0], _, rfl, rfl⟩

/-- Two bytes in the middle of a file. -/
theorem written_in_the_middle :
    ∃ s', fuseserverWrite (fileWith [97, 98, 99]) (drawing 0) 0x80000005 [120, 121] 2 1 =
        some (s', [.write 2]) ∧
      WrittenBack s' 0x80000005 [97, 98, 99] [120, 121] 2 1 :=
  ⟨_, rfl, (written_iff (fileWith [97, 98, 99]) _ (drawing 0) 0x80000005 [97, 98, 99] [120, 121] 2 1
    rfl (by decide) (by decide) (by decide) (by decide) rfl).2 (by decide)⟩

/-- A zero byte cuts the write short, and the rest of the file moves up. -/
theorem not_written_zero_byte :
    ∃ s', fuseserverWrite (fileWith [97, 98, 99, 100]) (drawing 0) 0x80000005 [120, 0, 121] 3 0 =
        some (s', [.write 3]) ∧
      s'.contents 0x80000005 = some [120, 100] ∧
      ¬ WrittenBack s' 0x80000005 [97, 98, 99, 100] [120, 0, 121] 3 0 :=
  ⟨_, rfl, by decide, fun h => absurd h.1 (by decide)⟩

/-! ## Offsets and sizes -/

/-- The write changes no byte of the file below its offset, or fails and
changes nothing. -/
def KeepsBelow (s : ExtentServer) (w : Ambient) (ino : UInt64) (buf : List UInt8) (size : UInt64)
    (off : Int64) : Prop :=
  ∀ s' replies, fuseserverWrite s w ino buf size off = some (s', replies) →
    (∀ v, s.contents ino = some v → ∃ v', s'.contents ino = some v' ∧
      ∀ i, i < v.length → (i : ℤ) < off.toInt → v'[i]? = v[i]?) ∨
    ((∃ e, .err e ∈ replies) ∧ s'.contents ino = s.contents ino)

/-- The size set is the length of the file then, or it fails and changes
nothing. -/
def SetsLength (s : ExtentServer) (w : Ambient) (ino : UInt64) (stSize : Int64) (toSet : UInt32) :
    Prop :=
  (∃ v, (fuseserverSetattr s w ino stSize toSet).1.contents ino = some v ∧
    (v.length : ℤ) = stSize.toInt) ∨
  ((∃ e, .err e ∈ (fuseserverSetattr s w ino stSize toSet).2) ∧
    (fuseserverSetattr s w ino stSize toSet).1.contents ino = s.contents ino)

/-- The offset loses its upper half, and what is left of it is in the
file, where the write changes a byte and does not make the file too
long. -/
def LandsBelow (s : ExtentServer) (ino : UInt64) (buf : List UInt8) (size : UInt64) (off : Int64) :
    Prop :=
  ∃ v, s.contents ino = some v ∧ 2 ^ 32 ≤ off.toInt ∧
    0 ≤ off.toInt32 ∧ off.toInt32 < Int32.ofNat v.length ∧
    (replaced v ((cString buf).take (toSize size.toUInt32.toInt32)) (toSize off.toInt32)
      (toSize size.toUInt32.toInt32)).length ≤ maxextent ∧
    ¬ v.drop (toSize off.toInt32) <+: (cString buf).take (toSize size.toUInt32.toInt32) ++
      v.drop (toSize off.toInt32 + toSize size.toUInt32.toInt32)

theorem prefix_iff_getElem?_eq {v v' : List UInt8} :
    v <+: v' ↔ ∀ i, i < v.length → v'[i]? = v[i]? := by
  rw [List.prefix_iff_getElem?]
  refine forall_congr' fun i => forall_congr' fun hi => ?_
  rw [List.getElem?_eq_getElem hi]

theorem prefix_replaced_iff {v b : List UInt8} {o n : ℕ} :
    v <+: replaced v b o n ↔ v.drop o <+: b ++ v.drop (o + n) := by
  have h : v.take o ++ v.drop o <+: v.take o ++ (b ++ v.drop (o + n)) ↔
      v.drop o <+: b ++ v.drop (o + n) := List.prefix_append_right_inj _
  rw [List.take_append_drop] at h
  rw [replaced, List.append_assoc, h]

theorem toInt_ofNat_le (n : ℕ) : (Int32.ofNat n).toInt ≤ n := by
  have hsize : Int32.size = 2 ^ 32 := rfl
  rw [Int32.toInt_ofNat', Int.bmod_def, hsize]
  split
  · omega
  · omega

theorem length_lt_of_sized {s : ExtentServer} (hs : Sized s) {ino : UInt64} {v : List UInt8}
    (hv : s.contents ino = some v) : v.length < 2 ^ 32 := by
  obtain ⟨e, he, rfl⟩ := Option.map_eq_some_iff.1 hv
  rw [← hs ino e he]
  exact e.eAttr.size.toNat_lt

section

variable {s : ExtentServer} {w : Ambient} {ino : UInt64} {v buf : List UInt8} {size : UInt64}
variable {off : Int64}

/-- There is no file: an error, and nothing changes. -/
theorem fuseserverWrite_missing (hv : s.contents ino = none) :
    fuseserverWrite s w ino buf size off = some (s, [.err .enosys]) := by
  have hget : (s.get ino).1 ≠ .ok := by
    intro hok
    rw [ExtentServer.contents_of_get hok] at hv
    cases hv
  simp only [fuseserverWrite, YfsClient.write, if_pos hget]
  rfl

/-- Of a file that there is, what counts is the content put back. -/
theorem keepsBelow_iff_bytes (hv : s.contents ino = some v) :
    KeepsBelow s w ino buf size off ↔
      ∀ v', (ClientOp.write ino (cString buf) size.toUInt32.toInt32 off.toInt32).putsBack v =
          some v' → v'.length ≤ maxextent →
        ∀ i, i < v.length → (i : ℤ) < off.toInt → v'[i]? = v[i]? := by
  have hget := ExtentServer.get_eq_of_contents hv
  constructor
  · intro h v' hback hlen i hi hio
    have hw : fuseserverWrite s w ino buf size off =
        some ((s.put ino v' w.now).1, [.write size]) := by
      rw [fuseserverWrite_eq hget, hback, Option.map_some, if_pos hlen]
    rcases h _ _ hw with hkeep | ⟨⟨e, he⟩, -⟩
    · obtain ⟨v'', hv'', hbytes⟩ := hkeep v hv
      rw [ExtentServer.contents_put, if_pos hlen, Function.update_self, Option.some.injEq] at hv''
      rw [hv'']
      exact hbytes i hi hio
    · simp at he
  · intro h s' replies hw
    rw [fuseserverWrite_eq hget] at hw
    obtain ⟨v', hback, hw⟩ := Option.map_eq_some_iff.1 hw
    refine .inl fun u hu => ?_
    obtain rfl : v = u := Option.some.inj (hv.symm.trans hu)
    split at hw
    · rename_i hlen
      cases hw
      refine ⟨v', ?_, h v' hback hlen⟩
      rw [ExtentServer.contents_put, if_pos hlen, Function.update_self]
    · cases hw
      exact ⟨v, hv, fun _ _ _ => rfl⟩

/-- Below 2³² an offset that is narrowed is itself, or negative. -/
theorem toSize_narrowed (hoff : 0 ≤ off) (hlt : off.toInt < 2 ^ 32) (hpos : 0 ≤ off.toInt32) :
    (toSize off.toInt32 : ℤ) = off.toInt := by
  have h0 : 0 ≤ off.toInt := Int64.le_iff_toInt_le.1 hoff
  have h32 : 0 ≤ off.toInt32.toInt := Int32.le_iff_toInt_le.1 hpos
  rw [toSize_of_nonneg hpos]
  rw [Int64.toInt_toInt32, Int.bmod_def] at h32 ⊢
  split at h32
  · rename_i hsmall
    rw [if_pos hsmall]
    omega
  · omega

/-- **When a write keeps what is below its offset.** -/
theorem keepsBelow_iff (hs : Sized s) (hoff : 0 ≤ off) :
    KeepsBelow s w ino buf size off ↔ ¬ LandsBelow s ino buf size off := by
  cases hv : s.contents ino with
  | none =>
    have hw : fuseserverWrite s w ino buf size off = some (s, [.err .enosys]) :=
      fuseserverWrite_missing hv
    refine iff_of_true (fun s' replies h => ?_) fun ⟨v, hv', _⟩ => ?_
    · rw [hw] at h
      cases h
      exact .inr ⟨⟨.enosys, List.mem_singleton_self _⟩, rfl⟩
    · rw [hv] at hv'
      cases hv'
  | some v =>
    have hlen := length_lt_of_sized hs hv
    rw [keepsBelow_iff_bytes hv]
    constructor
    · rintro h ⟨u, hu, hbig, hpos, hlt, hfit, hdiff⟩
      obtain rfl : v = u := Option.some.inj (hv.symm.trans hu)
      have hin : toSize off.toInt32 ≤ v.length := by
        have h1 := toInt_ofNat_le v.length
        have h2 := Int32.lt_iff_toInt_lt.1 hlt
        rw [toSize_of_nonneg hpos]
        omega
      refine hdiff (prefix_replaced_iff.1 (prefix_iff_getElem?_eq.2 fun i hi =>
        h _ ?_ hfit i hi (by omega)))
      rw [ClientOp.putsBack, stringSubstr_zero, Option.bind_some, if_neg (Int32.not_le.2 hlt),
        stringReplace, if_neg (by omega)]
      rfl
    · intro hnot v' hback hfit i hi hio
      rcases putsBack_write_cases hback with ⟨-, rfl⟩ | ⟨hlt, hin, rfl⟩
      · exact List.getElem?_append_left hi
      · have hpos : 0 ≤ off.toInt32 := by
          by_contra hneg
          have := toSize_of_neg (Int32.not_le.1 hneg)
          omega
        by_cases hsmall : off.toInt < 2 ^ 32
        · have := toSize_narrowed hoff hsmall hpos
          exact getElem?_replaced_of_lt _ _ hin (by omega)
        · -- all of the file is below the offset
          refine prefix_iff_getElem?_eq.1 (prefix_replaced_iff.2 ?_) i hi
          by_contra hdiff
          exact hnot ⟨v, hv, Int.not_lt.1 hsmall, hpos, hlt, hfit, hdiff⟩

end

/-- `setattr`, on a file that there is, resizes it to what is left of the
size. -/
theorem contents_setattr {s : ExtentServer} (hs : Sized s) {ino : UInt64} {v : List UInt8}
    (hv : s.contents ino = some v) (finSize : UInt64) (a : Attr) (now : UInt32) :
    (YfsClient.setattr s ino finSize a now).2 = .ok ∧
      (YfsClient.setattr s ino finSize a now).1.contents ino =
        some (stringResize v finSize.toUInt32.toNat) := by
  obtain ⟨e, he, rfl⟩ := Option.map_eq_some_iff.1 hv
  have hsame : finSize.toUInt32 = e.eAttr.size →
      stringResize e.content finSize.toUInt32.toNat = e.content := by
    intro heq
    rw [heq, hs ino e he, stringResize_length]
  rw [YfsClient.setattr, ExtentServer.setattr, he]
  dsimp only
  split
  · rename_i heq
    rw [hsame heq, if_neg (not_not.2 rfl), ExtentServer.contents_update, Function.update_self]
    exact ⟨rfl, rfl⟩
  · rw [if_neg (not_not.2 rfl), ExtentServer.contents_update, Function.update_self]
    exact ⟨rfl, rfl⟩

/-- **When the size set is the length of the file.** -/
theorem setsLength_iff {s : ExtentServer} (hs : Sized s) {w : Ambient} {ino : UInt64}
    {stSize : Int64} {toSet : UInt32} (hsize : 0 ≤ stSize) (hset : fuseSetAttrSize &&& toSet ≠ 0) :
    SetsLength s w ino stSize toSet ↔ s.contents ino = none ∨ stSize.toInt < 2 ^ 32 := by
  have hnat := toNat_toUInt64 hsize
  rw [SetsLength, fuseserverSetattr, if_pos hset]
  dsimp only
  cases hv : s.contents ino with
  | none =>
    have hext : s.extents ino = none := Option.map_eq_none_iff.1 hv
    have hr : YfsClient.setattr s ino stSize.toUInt64 w.attr w.now = (s, .ioerr) := by
      rw [YfsClient.setattr, ExtentServer.setattr, hext]
      rfl
    have hne : (YfsClient.setattr s ino stSize.toUInt64 w.attr w.now).2 ≠ .ok := by
      rw [hr]
      exact fun hok => Status.noConfusion hok
    rw [if_pos hne, hr]
    exact iff_of_true (.inr ⟨⟨.enosys, List.mem_singleton_self _⟩, hv⟩) (.inl rfl)
  | some v =>
    obtain ⟨hok, hcontents⟩ := contents_setattr hs hv stSize.toUInt64 w.attr w.now
    have hg : (YfsClient.getfile (YfsClient.setattr s ino stSize.toUInt64 w.attr w.now).1 ino
        { w.info with size := stSize.toUInt64 }).1 = .ok := by
      rw [getfile_ok_iff, ← ExtentServer.isSome_contents, hcontents]
      rfl
    have hlen := length_stringResize v stSize.toUInt64.toUInt32.toNat
    rw [UInt64.toNat_toUInt32] at hlen
    rw [if_neg (not_not.2 hok), if_neg (not_not.2 hg), hcontents]
    constructor
    · rintro (⟨u, hu, hulen⟩ | ⟨⟨e, he⟩, -⟩)
      · rw [← Option.some.inj hu, UInt64.toNat_toUInt32] at hulen
        exact .inr (by omega)
      · simp at he
    · rintro (hc | hlt)
      · cases hc
      · refine .inl ⟨_, rfl, ?_⟩
        rw [UInt64.toNat_toUInt32]
        omega

/-- **When narrowing does no harm**, to the offset of a write and to the
size that is set. -/
theorem narrowed_iff (s : ExtentServer) (hs : s.Reachable) (w : Ambient) (ino : UInt64) :
    (∀ (buf : List UInt8) (size : UInt64) (off : Int64), 0 ≤ off →
      (KeepsBelow s w ino buf size off ↔ ¬ LandsBelow s ino buf size off)) ∧
    ∀ (stSize : Int64) (toSet : UInt32), 0 ≤ stSize → fuseSetAttrSize &&& toSet ≠ 0 →
      (SetsLength s w ino stSize toSet ↔ s.contents ino = none ∨ stSize.toInt < 2 ^ 32) :=
  ⟨fun _ _ _ hoff => keepsBelow_iff hs.sized hoff,
    fun _ _ hsize hset => setsLength_iff hs.sized hsize hset⟩

/-- A byte is written, and the file cut. -/
theorem narrowed_small_numbers :
    KeepsBelow (fileWith [97, 98]) (drawing 0) 0x80000005 [120, 0] 1 1 ∧
      SetsLength (fileWith [97, 98]) (drawing 0) 0x80000005 1 8 := by
  have h := narrowed_iff (fileWith [97, 98]) (reachable_fileWith _) (drawing 0) 0x80000005
  refine ⟨(h.1 [120, 0] 1 1 (by decide)).2 ?_,
    (h.2 1 8 (by decide) (by decide)).2 (.inr (by decide))⟩
  rintro ⟨v, -, hbig, -⟩
  exact absurd hbig (by decide)

/-- A write at 2³² overwrites the start of the file, and to set its size
to 2³² empties it; both succeed. -/
theorem not_narrowed_upper_half :
    (fileWith [97, 98]).Reachable ∧
      ¬ KeepsBelow (fileWith [97, 98]) (drawing 0) 0x80000005 [120, 0] 1 4294967296 ∧
      ¬ SetsLength (fileWith [97, 98]) (drawing 0) 0x80000005 4294967296 8 := by
  refine ⟨reachable_fileWith _, fun h => ?_, fun h => ?_⟩
  · rcases h _ _ rfl with hkeep | ⟨⟨e, he⟩, -⟩
    · obtain ⟨v', hv', hbytes⟩ := hkeep [97, 98] rfl
      obtain rfl : [120, 98] = v' := Option.some.inj hv'
      exact absurd (hbytes 0 (by decide) (by decide)) (by decide)
    · cases he with
      | tail _ he => cases he
  · rcases h with ⟨v, hv, hlen⟩ | ⟨⟨e, he⟩, -⟩
    · obtain rfl : [] = v := Option.some.inj hv
      exact absurd hlen (by decide)
    · cases he with
      | tail _ he => cases he

end Yfs
