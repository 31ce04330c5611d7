import LexiDB.Lib.Bytes
import LexiDB.Lib.Exec
import LexiDB.Lib.ChainedTable

/-! The chained dictionary of ht.c. Keys and values are typed; a key's bytes in
memory, which is what gets hashed, are the `raw` of the key operations. -/

namespace LexiDB

open Lib

def htInitialCap : Nat := 32

inductive HtResult where
  | ok
  | invKey
  | oom
  deriving DecidableEq, Repr

structure HtEntry (K V : Type) where
  key : K
  value : V
  deriving DecidableEq, Repr

/-- `ht`. `table` is the address of the entry array, `entries` the chains it
points to, head first. -/
structure Ht (K V : Type) where
  numEntries : Nat
  capacity : Nat
  seed : List UInt8
  table : Nat
  entries : List (List (HtEntry K V))

/-- What a table is given to work with: the hash of a byte string under a seed,
the bytes of a key, and the comparison callback if there is one. -/
structure KeyOps (K : Type) where
  siphash : List UInt8 → List UInt8 → Nat
  raw : K → List UInt8
  keyCmp : Option (K → K → Int)

/-- The comparison of every chain walk, searched key first. -/
def KeyOps.compare (ops : KeyOps K) (key stored : K) : Int :=
  match ops.keyCmp with
  | some cmp => cmp key stored
  | none =>
    if (ops.raw key).length ≠ (ops.raw stored).length then 1
    else memcmp (ops.raw key) (ops.raw stored)

def KeyOps.hash (ops : KeyOps K) (seed : List UInt8) (key : K) : Nat := ops.siphash (ops.raw key) seed

/-- The test of every chain walk over dictionary entries. -/
def KeyOps.hits (ops : KeyOps K) (key : K) (entry : HtEntry K V) : Bool :=
  ops.compare key entry.key = 0

def htNew (seed : List UInt8) (table : Nat) : Ht K V :=
  ⟨0, htInitialCap, seed, table, List.replicate htInitialCap []⟩

def htHash (ops : KeyOps K) (ht : Ht K V) (key : K) : Nat := ops.hash ht.seed key % ht.capacity

/-- `ht_resize`; `calloc` is the address of the new array, `none` for NULL. -/
def htResize (ops : KeyOps K) (calloc : Option Nat) (ht : Ht K V) : Option (Ht K V) :=
  calloc.map fun table =>
    let newCap := ht.capacity * 2
    { ht with
      capacity := newCap
      table := table
      entries := rehash (fun entry => ops.hash ht.seed entry.key) newCap ht.entries }

def htLink (ops : KeyOps K) (ht : Ht K V) (key : K) (data : V) : Ht K V :=
  let slot := htHash ops ht key
  { ht with
    entries := ht.entries.set slot (⟨key, data⟩ :: chainAt ht.entries slot)
    numEntries := ht.numEntries + 1 }

/-- The resize both insertions start with. -/
def htReserve (ops : KeyOps K) (calloc : Option Nat) (ht : Ht K V) : Option (Ht K V) :=
  if ht.numEntries = ht.capacity then htResize ops calloc ht else some ht

/-- `ht_insert`: a present key keeps its stored key object and gets new data. -/
def htInsert (ops : KeyOps K) (calloc : Option Nat) (ht : Ht K V) (key : K) (data : V) :
    HtResult × Ht K V :=
  match htReserve ops calloc ht with
  | none => (.oom, ht)
  | some ht =>
    let slot := htHash ops ht key
    match updateFirst? (ops.hits key) (fun entry => { entry with value := data }) (chainAt ht.entries slot) with
    | some chain => (.ok, { ht with entries := ht.entries.set slot chain })
    | none => (.ok, htLink ops ht key data)

def htTryInsert (ops : KeyOps K) (calloc : Option Nat) (ht : Ht K V) (key : K) (data : V) :
    HtResult × Ht K V :=
  match htReserve ops calloc ht with
  | none => (.oom, ht)
  | some ht =>
    if (chainAt ht.entries (htHash ops ht key)).any (ops.hits key) then (.invKey, ht)
    else (.ok, htLink ops ht key data)

def htGet (ops : KeyOps K) (ht : Ht K V) (key : K) : Option V :=
  ((chainAt ht.entries (htHash ops ht key)).find? (ops.hits key)).map HtEntry.value

def htDelete (ops : KeyOps K) (ht : Ht K V) (key : K) : HtResult × Ht K V :=
  let slot := htHash ops ht key
  match unlinkFirst? (ops.hits key) (chainAt ht.entries slot) with
  | none => (.invKey, ht)
  | some chain => (.ok, { ht with entries := ht.entries.set slot chain, numEntries := ht.numEntries - 1 })

/-- A pointer to a node is the rest of its chain from that node on; NULL is the
empty list. -/
structure HtIter (K V : Type) where
  cur : List (HtEntry K V)
  next : List (HtEntry K V)
  nextSlot : Nat
  endSlot : Nat

/-- The scan for the first occupied slot from `slot` on, over the array from
there. -/
def firstChain (slot : Nat) : List (List E) → Option (Nat × List E)
  | [] => none
  | [] :: rest => firstChain (slot + 1) rest
  | chain :: _ => some (slot, chain)

/-- Where a scan leaves `next` and `next_slot`. -/
def HtIter.seek (iter : HtIter K V) (ht : Ht K V) (slot : Nat) : HtIter K V :=
  match firstChain slot (ht.entries.drop slot) with
  | some (found, chain) => { iter with next := chain, nextSlot := found }
  | none => { iter with next := [], nextSlot := iter.endSlot }

def htIterNext (ht : Ht K V) (iter : HtIter K V) : HtIter K V :=
  let iter := { iter with cur := iter.next }
  if iter.nextSlot = iter.endSlot then { iter with next := [] }
  else if iter.nextSlot = 0 ∧ iter.next = [] then iter.seek ht 0
  else if iter.next.tail ≠ [] then { iter with next := iter.next.tail }
  else iter.seek ht (iter.nextSlot + 1)

def htIterNew (ht : Ht K V) : HtIter K V :=
  htIterNext ht (htIterNext ht ⟨[], [], 0, ht.capacity⟩)

end LexiDB
