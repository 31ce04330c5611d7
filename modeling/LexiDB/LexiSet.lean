import LexiDB.Ht

/-! The chained set of set.c: written separately from the dictionary, with its
own result codes and its own failure points. -/

namespace LexiDB

open Lib

def setInitialCap : Nat := 32

/-- `set_result`; `failed` is the -1 that one failing branch returns in its
place. -/
inductive SetResult where
  | ok
  | keyExists
  | invKey
  | oom
  | failed
  deriving DecidableEq, Repr

/-- `set`; the chains hold the elements themselves, head first. -/
structure LexiSet (α : Type) where
  numEntries : Nat
  capacity : Nat
  seed : List UInt8
  entries : List (List α)

/-- Whether the `calloc` of a resize and the `malloc` of an entry are granted. -/
structure SetMem where
  resize : Bool
  entry : Bool

def setNew (seed : List UInt8) : LexiSet α := ⟨0, setInitialCap, seed, List.replicate setInitialCap []⟩

def setLen (s : LexiSet α) : Nat := s.numEntries

def setHash (ops : KeyOps α) (s : LexiSet α) (data : α) : Nat := ops.hash s.seed data % s.capacity

def KeyOps.same (ops : KeyOps α) (data stored : α) : Bool := ops.compare data stored = 0

def setResize (ops : KeyOps α) (mem : SetMem) (s : LexiSet α) : Option (LexiSet α) :=
  if mem.resize then
    let newCap := s.capacity * 2
    some { s with capacity := newCap, entries := rehash (ops.hash s.seed) newCap s.entries }
  else none

def setInsert (ops : KeyOps α) (mem : SetMem) (s : LexiSet α) (data : α) : SetResult × LexiSet α :=
  match (if s.numEntries ≥ s.capacity then setResize ops mem s else some s) with
  | none => (.oom, s)
  | some s =>
    let slot := setHash ops s data
    let head := chainAt s.entries slot
    let linked := { s with entries := s.entries.set slot (data :: head), numEntries := s.numEntries + 1 }
    if head = [] then if mem.entry then (.ok, linked) else (.failed, s)
    else if head.any (ops.same data) then (.keyExists, s)
    else if mem.entry then (.ok, linked) else (.oom, s)

def setHas (ops : KeyOps α) (s : LexiSet α) (data : α) : Bool :=
  (chainAt s.entries (setHash ops s data)).any (ops.same data)

def setDelete (ops : KeyOps α) (s : LexiSet α) (data : α) : SetResult × LexiSet α :=
  let slot := setHash ops s data
  match unlinkFirst? (ops.same data) (chainAt s.entries slot) with
  | none => (.invKey, s)
  | some chain => (.ok, { s with entries := s.entries.set slot chain, numEntries := s.numEntries - 1 })

end LexiDB
