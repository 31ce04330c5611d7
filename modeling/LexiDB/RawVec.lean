import LexiDB.Lib.Blocks
import LexiDB.Vec

/-! vec.c byte by byte: the elements of any size lie one behind the other in the
block behind the struct, and every offset is computed in a `size_t`. -/

namespace LexiDB

open Lib

/-- `sizeof(vec)`, without the flexible array. -/
def sizeofVec : Nat := 24

/-- What `malloc` or `realloc` grants: an address, and what the new bytes happen to
hold. -/
structure Grant where
  address : Nat
  junk : Nat → UInt8

/-- `vec`; `data` holds the bytes that were asked for behind the struct. -/
structure RawVec where
  address : Nat
  len : Nat
  cap : Nat
  dataSize : Nat
  data : List UInt8

/-- `memset` of `count` bytes from `start` on. -/
def memset (buf : List UInt8) (start : Nat) (byte : UInt8) (count : Nat) : List UInt8 :=
  store buf start (List.replicate count byte)

/-- `memmove` within a buffer, whose parts may overlap. -/
def memmove (buf : List UInt8) (target source count : Nat) : List UInt8 := store buf target (load buf source count)

/-- The contents of a block of another size: `realloc` keeps what fits. -/
def Grant.resized (grant : Grant) (buf : List UInt8) (size : Nat) : List UInt8 :=
  buf.take size ++ (List.range (size - buf.length)).map fun i => grant.junk (buf.length + i)

namespace RawVec

def vecNew (malloc : Option Grant) (dataSize : Nat) : Option RawVec :=
  let needed := (sizeofVec + dataSize * vecInitialCap % sizeMod) % sizeMod
  malloc.map fun grant =>
    ⟨grant.address, 0, vecInitialCap, dataSize, memset (grant.resized [] (needed - sizeofVec)) 0 0 (needed - sizeofVec)⟩

def vecRealloc (realloc : Option Grant) (vec : RawVec) (cap len lenXSize dataSize : Nat) : Option RawVec :=
  let cap := cap * 2 % sizeMod
  let size := (sizeofVec + cap * dataSize % sizeMod) % sizeMod
  realloc.map fun grant =>
    { vec with
      address := grant.address
      data := memset (grant.resized vec.data (size - sizeofVec)) lenXSize 0 ((cap - len) * dataSize % sizeMod)
      cap := cap }

/-- `vec_push`; `memcpy` takes `data_size` bytes from the pointer. -/
def vecPush (realloc : Option Grant) (vec : RawVec) (data : List UInt8) : Int × RawVec :=
  let lenXSize := vec.len * vec.dataSize % sizeMod
  match (if vec.len = vec.cap then vecRealloc realloc vec vec.cap vec.len lenXSize vec.dataSize else some vec) with
  | none => (-1, vec)
  | some vec => (0, { vec with data := store vec.data lenXSize (data.take vec.dataSize), len := (vec.len + 1) % sizeMod })

/-- `vec_pop`, with what it copies out. -/
def vecPop (vec : RawVec) : Int × Option (List UInt8) × RawVec :=
  if vec.len = 0 then (-1, none, vec)
  else
    let popIdx := vec.len - 1
    (0, some (load vec.data (popIdx * vec.dataSize % sizeMod) vec.dataSize), { vec with len := vec.len - 1 })

/-- `vec_get_at`: where the element starts in the data, or NULL. -/
def vecGetAt (vec : RawVec) (idx : Nat) : Option Nat :=
  if idx ≥ vec.len then none else some (idx * vec.dataSize % sizeMod)

/-- `vec_remove_at`, with what it copies out if `out` is not NULL. -/
def vecRemoveAt (vec : RawVec) (idx : Nat) (out : Bool) : Int × Option (List UInt8) × RawVec :=
  if idx ≥ vec.len then (-1, none, vec)
  else
    let idxXSize := idx * vec.dataSize % sizeMod
    let newLen := vec.len - 1
    let copied := if out then some (load vec.data idxXSize vec.dataSize) else none
    if newLen = idx then (0, copied, { vec with len := vec.len - 1, data := memset vec.data idxXSize 0 vec.dataSize })
    else
      let newLenXSize := newLen * vec.dataSize % sizeMod
      let moved := memmove vec.data idxXSize ((idx + 1) * vec.dataSize % sizeMod) (newLenXSize - idxXSize)
      (0, copied, { vec with len := vec.len - 1, data := memset moved newLenXSize 0 vec.dataSize })

/-- `vec_find`: the first index at which `fn` answers zero, or -1. -/
def vecFind (vec : RawVec) (fn : List UInt8 → Int) (out : Bool) : Int × Option (List UInt8) :=
  let element := fun i => load vec.data (i * vec.dataSize % sizeMod) vec.dataSize
  match (List.range vec.len).find? fun i => fn (element i) = 0 with
  | none => (-1, none)
  | some i => (i, if out then some (element i) else none)

end RawVec

end LexiDB
