import Yfs.Common.SortedMap
import Yfs.Marshall.Unmarshall
import Mathlib.Data.List.Lex
import Mathlib.Order.Lattice

/-!
# The marshalled types

The types with an `operator<<` and an `operator>>`: the eight of
`rpc/rpc.cc`, `extent_protocol::attr`, and the `std::vector` and
`std::map` templates of `rpc/marshall.h` over them. A type is a code
`Ty` and `Ty.Val` its values, so that a nested container is one value
of one type; `put` and `get` are the overloaded operators.
-/

namespace Yfs

open Common

/-- The types `rpc.cc` gives operators to. -/
inductive Basic where
  | uchar
  | char
  | ushort
  | short
  | uint
  | int
  | ulonglong
  | string
deriving DecidableEq

/-- The values of a basic type. -/
abbrev Basic.Val : Basic → Type
  | .uchar => UInt8
  | .char => Int8
  | .ushort => UInt16
  | .short => Int16
  | .uint => UInt32
  | .int => Int32
  | .ulonglong => UInt64
  | .string => List UInt8

/-- Where `std::less` puts a value: a number by its value, a string
lexicographically by its bytes as `unsigned char`s. -/
def Basic.rank : (k : Basic) → k.Val → List ℤ
  | .uchar, x => [(x.toNat : ℤ)]
  | .char, x => [x.toInt]
  | .ushort, x => [(x.toNat : ℤ)]
  | .short, x => [x.toInt]
  | .uint, x => [(x.toNat : ℤ)]
  | .int, x => [x.toInt]
  | .ulonglong, x => [(x.toNat : ℤ)]
  | .string, s => s.map fun b => (b.toNat : ℤ)

theorem Basic.rank_injective (k : Basic) : Function.Injective k.rank := by
  intro x y h
  cases k with
  | uchar => exact UInt8.toNat_inj.1 (Int.natCast_inj.1 (List.singleton_inj.1 h))
  | char => exact Int8.toInt_inj.1 (List.singleton_inj.1 h)
  | ushort => exact UInt16.toNat_inj.1 (Int.natCast_inj.1 (List.singleton_inj.1 h))
  | short => exact Int16.toInt_inj.1 (List.singleton_inj.1 h)
  | uint => exact UInt32.toNat_inj.1 (Int.natCast_inj.1 (List.singleton_inj.1 h))
  | int => exact Int32.toInt_inj.1 (List.singleton_inj.1 h)
  | ulonglong => exact UInt64.toNat_inj.1 (Int.natCast_inj.1 (List.singleton_inj.1 h))
  | string =>
    refine List.map_injective_iff.2 (fun a b hab => ?_) h
    exact UInt8.toNat_inj.1 (by exact_mod_cast hab)

/-- The key order of `std::map`. -/
instance Basic.instLinearOrder (k : Basic) : LinearOrder k.Val :=
  LinearOrder.lift' k.rank k.rank_injective

/-- `extent_protocol::attr`. -/
structure Attr where
  atime : UInt32
  mtime : UInt32
  ctime : UInt32
  size : UInt32
deriving DecidableEq

/-- The marshalled types. -/
inductive Ty where
  | basic (b : Basic)
  | attr
  | vector (t : Ty)
  | map (k : Basic) (t : Ty)
deriving DecidableEq

/-- The values of a type. -/
@[reducible] def Ty.Val : Ty → Type
  | .basic b => b.Val
  | .attr => Attr
  | .vector t => List t.Val
  | .map k t => SortedMap k.Val t.Val

/-- The type has no `std::map` in it. -/
def Ty.noMap : Ty → Bool
  | .basic _ => true
  | .attr => true
  | .vector t => t.noMap
  | .map _ _ => false

/-- The arguments of a call: one value of each type of a list. -/
@[reducible] def Vals : List Ty → Type
  | [] => Unit
  | t :: ts => t.Val × Vals ts

/-! ## The encoding

What `operator<<` is meant to append, as a function of the value alone.
`put_appends` says that it does. -/

/-- The bytes of a value of a basic type. -/
def Basic.enc : (b : Basic) → b.Val → List UInt8
  | .uchar, x => [x]
  | .char, x => [x.toUInt8]
  | .ushort, x => be16 x
  | .short, x => be16 x.toUInt16
  | .uint, x => be32 x
  | .int, x => be32 x.toUInt32
  | .ulonglong, x => be32 (x >>> 32).toUInt32 ++ be32 x.toUInt32
  | .string, s => be32 (UInt32.ofNat s.length) ++ s

/-- The bytes of a value: a container is its size and its elements. -/
def Ty.enc : (t : Ty) → t.Val → List UInt8
  | .basic b, x => b.enc x
  | .attr, a => be32 a.atime ++ be32 a.mtime ++ be32 a.ctime ++ be32 a.size
  | .vector t, v => be32 (UInt32.ofNat v.length) ++ v.flatMap t.enc
  | .map k t, d =>
    be32 (UInt32.ofNat d.entries.length) ++ d.entries.flatMap fun e => k.enc e.1 ++ t.enc e.2

/-- The bytes of a sequence of values. -/
def encAll : (ts : List Ty) → Vals ts → List UInt8
  | [], _ => []
  | t :: ts, (v, vs) => t.enc v ++ encAll ts vs

/-! ## `operator<<` -/

namespace Marshall

/-- `operator<<(marshall &, unsigned char)`. -/
def putUchar (m : Marshall) (x : UInt8) : Marshall := m.rawbyte x

/-- `operator<<(marshall &, char)`. -/
def putChar (m : Marshall) (x : Int8) : Marshall := m.putUchar x.toUInt8

/-- `operator<<(marshall &, unsigned short)`. -/
def putUshort (m : Marshall) (x : UInt16) : Marshall :=
  let m := m.rawbyte ((x >>> 8) &&& 0xff).toUInt8
  m.rawbyte (x &&& 0xff).toUInt8

/-- `operator<<(marshall &, short)`. -/
def putShort (m : Marshall) (x : Int16) : Marshall := m.putUshort x.toUInt16

/-- `operator<<(marshall &, unsigned int)`. -/
def putUint (m : Marshall) (x : UInt32) : Marshall :=
  let m := m.rawbyte ((x >>> 24) &&& 0xff).toUInt8
  let m := m.rawbyte ((x >>> 16) &&& 0xff).toUInt8
  let m := m.rawbyte ((x >>> 8) &&& 0xff).toUInt8
  m.rawbyte (x &&& 0xff).toUInt8

/-- `operator<<(marshall &, int)`. -/
def putInt (m : Marshall) (x : Int32) : Marshall := m.putUint x.toUInt32

/-- `operator<<(marshall &, const std::string &)`. -/
def putString (m : Marshall) (s : List UInt8) : Marshall :=
  let m := m.putUint (UInt32.ofNat s.length)
  m.rawbytes s

/-- `operator<<(marshall &, unsigned long long)`. -/
def putUlonglong (m : Marshall) (x : UInt64) : Marshall :=
  let m := m.putUint (x >>> 32).toUInt32
  m.putUint x.toUInt32

/-- `operator<<(marshall &, extent_protocol::attr)`. -/
def putAttr (m : Marshall) (a : Attr) : Marshall :=
  let m := m.putUint a.atime
  let m := m.putUint a.mtime
  let m := m.putUint a.ctime
  m.putUint a.size

/-- `operator<<` of `rpc.cc`, by type. -/
def putBasic (m : Marshall) : (b : Basic) → b.Val → Marshall
  | .uchar, x => m.putUchar x
  | .char, x => m.putChar x
  | .ushort, x => m.putUshort x
  | .short, x => m.putShort x
  | .uint, x => m.putUint x
  | .int, x => m.putInt x
  | .ulonglong, x => m.putUlonglong x
  | .string, x => m.putString x

/-- `operator<<`, by type. -/
def put (m : Marshall) : (t : Ty) → t.Val → Marshall
  | .basic b, x => m.putBasic b x
  | .attr, a => m.putAttr a
  | .vector t, v => v.foldl (fun m x => m.put t x) (m.putUint (UInt32.ofNat v.length))
  | .map k t, d =>
    d.entries.foldl (fun m e => (m.putBasic k e.1).put t e.2)
      (m.putUint (UInt32.ofNat d.entries.length))

/-- A sequence of values, each with its `operator<<`. -/
def putAll (m : Marshall) : (ts : List Ty) → Vals ts → Marshall
  | [], _ => m
  | t :: ts, (v, vs) => (m.put t v).putAll ts vs

end Marshall

/-! ## `operator>>` -/

namespace Unmarshall

/-- `operator>>(unmarshall &, unsigned char &)`. -/
def getUchar (u : Unmarshall) : Unmarshall × UInt8 :=
  let r := u.rawbyte
  (r.1, r.2.toUInt8)

/-- `operator>>(unmarshall &, char &)`. -/
def getChar (u : Unmarshall) : Unmarshall × Int8 :=
  let r := u.rawbyte
  (r.1, r.2.toUInt8.toInt8)

/-- `operator>>(unmarshall &, unsigned short &)`. -/
def getUshort (u : Unmarshall) : Unmarshall × UInt16 :=
  let r1 := u.rawbyte
  let x : UInt16 := ((r1.2 &&& 0xff) <<< 8).toUInt16
  let r0 := r1.1.rawbyte
  (r0.1, (x.toUInt32 ||| (r0.2 &&& 0xff)).toUInt16)

/-- `operator>>(unmarshall &, short &)`. The `|=` widens the signed `x`. -/
def getShort (u : Unmarshall) : Unmarshall × Int16 :=
  let r1 := u.rawbyte
  let x : Int16 := ((r1.2 &&& 0xff) <<< 8).toUInt16.toInt16
  let r0 := r1.1.rawbyte
  (r0.1, (x.toInt32.toUInt32 ||| (r0.2 &&& 0xff)).toUInt16.toInt16)

/-- `operator>>(unmarshall &, unsigned int &)`. -/
def getUint (u : Unmarshall) : Unmarshall × UInt32 := u.word

/-- `operator>>(unmarshall &, int &)`. -/
def getInt (u : Unmarshall) : Unmarshall × Int32 :=
  let r := u.word
  (r.1, r.2.toInt32)

/-- `operator>>(unmarshall &, unsigned long long &)`. -/
def getUlonglong (u : Unmarshall) : Unmarshall × UInt64 :=
  let h := u.getUint
  let l := h.1.getUint
  (l.1, l.2.toUInt64 ||| h.2.toUInt64 <<< 32)

/-- `operator>>(unmarshall &, std::string &)`, into a fresh string. -/
def getString (u : Unmarshall) : Unmarshall × List UInt8 :=
  let sz := u.getUint
  if sz.1.ok then sz.1.rawbytes [] sz.2 else (sz.1, [])

/-- `operator>>(unmarshall &, extent_protocol::attr &)`. -/
def getAttr (u : Unmarshall) : Unmarshall × Attr :=
  let atime := u.getUint
  let mtime := atime.1.getUint
  let ctime := mtime.1.getUint
  let size := ctime.1.getUint
  (size.1, ⟨atime.2, mtime.2, ctime.2, size.2⟩)

/-- `operator>>` of `rpc.cc`, by type. -/
def getBasic (u : Unmarshall) : (b : Basic) → Unmarshall × b.Val
  | .uchar => u.getUchar
  | .char => u.getChar
  | .ushort => u.getUshort
  | .short => u.getShort
  | .uint => u.getUint
  | .int => u.getInt
  | .ulonglong => u.getUlonglong
  | .string => u.getString

/-- The loop of the container templates: `n` elements one after another,
whether or not the reads before them succeeded. -/
def getMany {α : Type} (g : Unmarshall → Unmarshall × α) : ℕ → Unmarshall → Unmarshall × List α
  | 0, u => (u, [])
  | n + 1, u =>
    let z := g u
    let r := getMany g n z.1
    (r.1, z.2 :: r.2)

/-- `operator>>`, by type, into a fresh variable. -/
def get (u : Unmarshall) : (t : Ty) → Unmarshall × t.Val
  | .basic b => u.getBasic b
  | .attr => u.getAttr
  | .vector t =>
    let n := u.getUint
    getMany (fun u => u.get t) n.2.toNat n.1
  | .map k t =>
    let n := u.getUint
    let r := getMany (fun u =>
      let a := u.getBasic k
      let b := a.1.get t
      (b.1, (a.2, b.2))) n.2.toNat n.1
    (r.1, r.2.foldl (fun d e => d.set e.1 e.2) SortedMap.empty)

/-- A sequence of types, each with its `operator>>`. -/
def getAll (u : Unmarshall) : (ts : List Ty) → Unmarshall × Vals ts
  | [] => (u, ())
  | t :: ts =>
    let v := u.get t
    let vs := v.1.getAll ts
    (vs.1, (v.2, vs.2))

end Unmarshall

end Yfs
