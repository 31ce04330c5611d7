import Mathlib.Data.List.Basic

/-! The linked queue of queue.c over an explicit heap of nodes. -/

namespace LexiDB

structure QNode (α : Type) where
  next : Option Nat
  data : α

structure Queue (α : Type) where
  numEl : Nat
  head : Option Nat
  tail : Option Nat
  nodes : Nat → Option (QNode α)

def queueNew : Queue α := ⟨0, none, none, fun _ => none⟩

/-- Store through a node pointer. -/
def Queue.store (q : Queue α) (pointer : Nat) (node : Option (QNode α)) : Queue α :=
  { q with nodes := fun other => if other = pointer then node else q.nodes other }

/-- `queue_enque`; `malloc` is the address of the new node, `none` for NULL. -/
def queueEnque (malloc : Option Nat) (q : Queue α) (data : α) : Int × Queue α :=
  match malloc with
  | none => (-1, q)
  | some node =>
    let q := { q.store node (some ⟨none, data⟩) with numEl := q.numEl + 1 }
    if q.numEl = 1 then (0, { q with head := some node, tail := some node })
    else
      let linked := q.tail.elim q fun tail => q.store tail ((q.nodes tail).map fun last => { last with next := some node })
      (0, { linked with tail := some node })

/-- `queue_deque`; the element it copies out, or `none` for -1. A head that is
no node, which a well-formed queue never has, is read as an empty queue. -/
def queueDeque (q : Queue α) : Option α × Queue α :=
  if q.numEl = 0 then (none, q)
  else
    match q.head.bind fun head => (q.nodes head).map fun node => (head, node) with
    | none => (none, q)
    | some (head, node) =>
      let q := { q.store head none with numEl := q.numEl - 1 }
      if q.numEl = 0 then (some node.data, { q with head := none, tail := none })
      else (some node.data, { q with head := node.next })

def queuePeek (q : Queue α) : Option α :=
  if q.numEl = 0 then none else (q.head.bind q.nodes).map QNode.data

end LexiDB
