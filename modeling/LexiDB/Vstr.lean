import LexiDB.Lib.Bytes
import LexiDB.Lib.Exec

/-! The small-string optimised `vstr` of vstr.c. A vstr owns its buffer, so the
heap block of a large string is part of the value: the pointer is kept because
the bytes of the struct are hashed, the contents because they are read. -/

namespace LexiDB

open Lib

def vstrMaxSmallSize : Nat := 23

def vstrMaxLargeSize : Nat := 2 ^ 56 - 1

/-- What the allocator answers within one call: every vstr operation asks
`calloc` and `realloc` at most once each; `none` is NULL. -/
structure Mem where
  calloc : Option Nat
  realloc : Option Nat

/-- An allocator that grants every request at this address. -/
def Mem.granted (address : Nat) : Mem := ⟨some address, some address⟩

def Mem.Grants (mem : Mem) : Prop := mem.calloc.isSome ∧ mem.realloc.isSome

theorem Mem.granted_grants (address : Nat) : (Mem.granted address).Grants := ⟨rfl, rfl⟩

/-- `vstr_lg`. `buf` holds the `cap` bytes that `data` points to. -/
structure VstrLg where
  data : Nat
  buf : List UInt8
  cap : Nat
  len : Nat
  deriving DecidableEq, Repr

/-- The union of the two layouts; `is_large` is the constructor. -/
inductive StrData where
  | sm (data : List UInt8)
  | lg (lg : VstrLg)
  deriving DecidableEq, Repr

structure Vstr where
  strData : StrData
  smallAvail : Nat
  deriving DecidableEq, Repr

/-- The 23 bytes a `vstr_lg` occupies, which is what the union shows once
`is_large` is cleared over it. -/
def VstrLg.bytes (lg : VstrLg) : List UInt8 :=
  leBytes 8 lg.data ++ leBytes 8 lg.cap ++ leBytes 7 lg.len

/-- The last byte of the struct packs `is_large` and `small_avail`. -/
def Vstr.flagByte (s : Vstr) : UInt8 :=
  match s.strData with
  | .sm _ => UInt8.ofNat (2 * s.smallAvail)
  | .lg _ => UInt8.ofNat (2 * s.smallAvail + 1)

/-- The 24 bytes of the struct. -/
def Vstr.raw (s : Vstr) : List UInt8 :=
  match s.strData with
  | .sm data => data ++ [s.flagByte]
  | .lg lg => lg.bytes ++ [s.flagByte]

def vstrNew : Vstr := ⟨.sm (List.replicate vstrMaxSmallSize 0), vstrMaxSmallSize⟩

def vstrLgNewLen (mem : Mem) (len : Nat) : Except Halt VstrLg :=
  match mem.calloc with
  | none => .error .abort
  | some data => .ok ⟨data, List.replicate (len + 1) 0, len + 1, 0⟩

def vstrNewLen (mem : Mem) (len : Nat) : Except Halt Vstr :=
  if len > vstrMaxSmallSize then
    if len ≤ vstrMaxLargeSize then do
      let lg ← vstrLgNewLen mem len
      return ⟨.lg lg, 0⟩
    else .error .abort
  else .ok vstrNew

/-- An all-zero `vstr_lg`, which the failing constructors return. -/
def VstrLg.null : VstrLg := ⟨0, [], 0, 0⟩

def vstrMakeLg (mem : Mem) (data : List UInt8) : VstrLg :=
  match mem.calloc with
  | none => .null
  | some address =>
    ⟨address, data.take vstrMaxSmallSize ++ List.replicate 2 0, vstrMaxSmallSize + 2, vstrMaxSmallSize⟩

def vstrMakeLgLen (mem : Mem) (data : List UInt8) (len : Nat) : VstrLg :=
  if len ≥ vstrMaxLargeSize then .null
  else
    match mem.calloc with
    | none => .null
    | some address => ⟨address, data.take len ++ [0], len + 1, len⟩

def vstrFromLen (mem : Mem) (cstr : List UInt8) (len : Nat) : Vstr :=
  if len > vstrMaxSmallSize then
    let lg := vstrMakeLgLen mem cstr len
    if lg.cap = 0 then ⟨.sm lg.bytes, 0⟩ else ⟨.lg lg, 0⟩
  else ⟨.sm (cstr.take len ++ List.replicate (vstrMaxSmallSize - len) 0), vstrMaxSmallSize - len⟩

/-- `vstr_from` measures its argument with `strlen`. -/
def vstrFrom (mem : Mem) (cstr : List UInt8) : Vstr := vstrFromLen mem cstr (untilNul cstr).length

/-- `vstr_format` of a format whose output is `text`. -/
def vstrFormat (mem : Mem) (text : List UInt8) : Except Halt Vstr :=
  if text.length = 0 then .error .abort
  else do
    let size := text.length + 1
    let s ← vstrNewLen mem size
    match s.strData with
    | .lg lg => return ⟨.lg { lg with buf := text ++ lg.buf.drop text.length, len := size - 1 }, s.smallAvail⟩
    | .sm data => return ⟨.sm (text ++ 0 :: data.drop size), vstrMaxSmallSize - size + 1⟩

def vstrLen (s : Vstr) : Nat :=
  match s.strData with
  | .lg lg => lg.len
  | .sm _ => vstrMaxSmallSize - s.smallAvail

/-- The memory behind `vstr_data`. A full small string runs into the flag byte,
which is its terminator. -/
def vstrData (s : Vstr) : List UInt8 :=
  match s.strData with
  | .lg lg => lg.buf
  | .sm data => data ++ [s.flagByte]

/-- The contents: the first `vstr_len` bytes of `vstr_data`. -/
def Vstr.bytes (s : Vstr) : List UInt8 := (vstrData s).take (vstrLen s)

def vstrCmp (a b : Vstr) : Int :=
  if vstrLen a = vstrLen b then strncmp (vstrLen a) (vstrData a) (vstrData b)
  else if vstrLen a < vstrLen b then
    let cmp := strncmp (vstrLen a) (vstrData a) (vstrData b)
    if cmp = 0 then 1 else cmp
  else
    let cmp := strncmp (vstrLen b) (vstrData a) (vstrData b)
    if cmp = 0 then -1 else cmp

/-- The block after a `realloc` to `cap` bytes and the `memset` behind the used
ones. -/
def VstrLg.grow (lg : VstrLg) (cap address : Nat) : VstrLg :=
  ⟨address, lg.buf.take lg.len ++ List.replicate (cap - lg.len) 0, cap, lg.len⟩

def vstrReallocLg (mem : Mem) (lg : VstrLg) : Option VstrLg := mem.realloc.map (lg.grow (lg.cap * 2))

def vstrReallocLgLen (mem : Mem) (lg : VstrLg) (newLen : Nat) : Option VstrLg :=
  mem.realloc.map (lg.grow (lg.cap + newLen))

/-- The tail both large pushes share once there is room: the bytes are copied
to the insertion point and counted. -/
def VstrLg.write (lg : VstrLg) (str : List UInt8) : VstrLg :=
  { lg with
    buf := lg.buf.take lg.len ++ str ++ lg.buf.drop (lg.len + str.length)
    len := lg.len + str.length }

def vstrLgPushChar (mem : Mem) (lg : VstrLg) (c : UInt8) : Int × VstrLg :=
  if lg.cap = 0 then (-1, lg)
  else
    match (if lg.len = lg.cap - 1 then vstrReallocLg mem lg else some lg) with
    | none => (-1, lg)
    | some lg => if lg.len + 1 > vstrMaxLargeSize then (-1, lg) else (0, lg.write [c])

def vstrLgPushString (mem : Mem) (lg : VstrLg) (str : List UInt8) : Int × VstrLg :=
  if lg.cap = 0 then (-1, lg)
  else if lg.len + str.length > vstrMaxLargeSize then (-1, lg)
  else
    match (if lg.len + str.length > lg.cap - 1 then vstrReallocLgLen mem lg str.length else some lg) with
    | none => (-1, lg)
    | some lg => (0, lg.write str)

/-- `vstr_sm_push_char` and `vstr_sm_push_string`: copy behind the used bytes
when `avail` allows it. -/
def vstrSmPush (data str : List UInt8) (avail : Nat) : Option (List UInt8) :=
  if str.length > avail then none
  else
    let ins := vstrMaxSmallSize - avail
    some (data.take ins ++ str ++ data.drop (ins + str.length))

def vstrPushChar (mem : Mem) (s : Vstr) (c : UInt8) : Int × Vstr :=
  match s.strData with
  | .lg lg =>
    let (res, lg) := vstrLgPushChar mem lg c
    (res, { s with strData := .lg lg })
  | .sm data =>
    match vstrSmPush data [c] s.smallAvail with
    | some data => (0, ⟨.sm data, s.smallAvail - 1⟩)
    | none =>
      let lg := vstrMakeLg mem data
      -- the union is already overwritten when the failure is noticed
      if lg.cap = 0 then (-1, { s with strData := .sm lg.bytes })
      else
        let (res, lg) := vstrLgPushChar mem lg c
        (res, { s with strData := .lg lg })

/-- `vstr_push_string_len`; the length is that of `str`. -/
def vstrPushStringLen (mem : Mem) (s : Vstr) (str : List UInt8) : Int × Vstr :=
  match s.strData with
  | .lg lg =>
    let (res, lg) := vstrLgPushString mem lg str
    (res, { s with strData := .lg lg })
  | .sm data =>
    match vstrSmPush data str s.smallAvail with
    | some data => (0, ⟨.sm data, s.smallAvail - str.length⟩)
    | none =>
      let lg := vstrMakeLgLen mem data (vstrLen s)
      let (res, lg) := vstrLgPushString mem lg str
      (res, { s with strData := .lg lg })

/-- `vstr_push_string` differs from `vstr_push_string_len` only in `strlen`. -/
def vstrPushString (mem : Mem) (s : Vstr) (str : List UInt8) : Int × Vstr :=
  vstrPushStringLen mem s (untilNul str)

def vstrReset (s : Vstr) : Vstr :=
  match s.strData with
  | .lg lg => ⟨.sm lg.bytes, vstrMaxSmallSize⟩
  | .sm _ => ⟨.sm (List.replicate vstrMaxSmallSize 0), vstrMaxSmallSize⟩

/-- `vstr_free` leaves whatever bytes the struct held; only the flag byte is
rewritten. -/
def vstrFree (s : Vstr) : Vstr :=
  match s.strData with
  | .lg lg => ⟨.sm lg.bytes, vstrMaxSmallSize⟩
  | .sm data => ⟨.sm data, vstrMaxSmallSize⟩

/-- The representation invariant: a small string counts its free bytes, a large
one keeps a byte for the terminator. -/
def Vstr.Valid (s : Vstr) : Prop :=
  match s.strData with
  | .sm data => data.length = vstrMaxSmallSize ∧ s.smallAvail ≤ vstrMaxSmallSize
  | .lg lg => lg.buf.length = lg.cap ∧ lg.len < lg.cap ∧ lg.len ≤ vstrMaxLargeSize

end LexiDB
