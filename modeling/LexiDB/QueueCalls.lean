import LexiDB.Lib.Lockstep
import LexiDB.QueueInvariant

/-! The linked queue under every sequence of calls. -/

namespace LexiDB

open Lib

variable {α : Type} {q : Queue α} {elems : List α}

inductive QueueCall (α : Type) where
  | enque (data : α)
  | deque
  | peek

/-- What a call returns: a number and what it copies to `out`, or what the pointer
points to, if it is not NULL. -/
inductive QueueAnswer (α : Type) where
  | code (res : Int) (copied : Option α)
  | pointer (data : Option α)
  deriving DecidableEq

/-- A call, with the node that `malloc` gives. -/
def Queue.step (q : Queue α) (call : Option Nat × QueueCall α) : QueueAnswer α × Queue α :=
  match call.2 with
  | .enque data => (.code (queueEnque call.1 q data).1 none, (queueEnque call.1 q data).2)
  | .deque => (.code (if (queueDeque q).1.isSome then 0 else -1) (queueDeque q).1, (queueDeque q).2)
  | .peek => (.pointer (queuePeek q), q)

/-- The same call on a list, oldest element first. -/
def fifoStep (elems : List α) (call : Option Nat × QueueCall α) : QueueAnswer α × List α :=
  match call.2 with
  | .enque data => (.code 0 none, elems ++ [data])
  | .deque => (.code (if elems.isEmpty then -1 else 0) elems.head?, elems.tail)
  | .peek => (.pointer elems.head?, elems)

/-- `malloc` gives a node that is not in use. -/
def Queue.Allocates (q : Queue α) (call : Option Nat × QueueCall α) : Prop :=
  ∀ data, call.2 = .enque data → ∃ node, call.1 = some node ∧ q.nodes node = none

/-- The three views of the chain: its nodes are counted, the last of them is the tail
and has no next one, and there is neither head nor tail where there is no node. -/
structure Queue.Linked (q : Queue α) (elems : List α) : Prop where
  chain : ∃ cells : List (Nat × α), Queue.Chain q.nodes q.head cells ∧ cells.map Prod.snd = elems ∧
    q.tail = (cells.map Prod.fst).getLast?
  count : q.numEl = elems.length
  ends : ∀ tail, q.tail = some tail → ∃ node, q.nodes tail = some node ∧ node.next = none
  empty : q.head = none ∧ q.tail = none ↔ q.numEl = 0

/-- The last node of a chain has no next one. -/
theorem Queue.Chain.last {nodes : Nat → Option (QNode α)} {cells : List (Nat × α)} {cell : Nat × α} :
    ∀ head, Queue.Chain nodes head (cells ++ [cell]) → nodes cell.1 = some ⟨none, cell.2⟩ := by
  induction cells with
  | nil =>
    intro head chain
    cases head with
    | none => cases chain
    | some pointer =>
      obtain ⟨here, next, node, rest⟩ := chain
      cases next with
      | none => rwa [here]
      | some other => cases rest
  | cons first cells ih =>
    intro head chain
    cases head with
    | none => cases chain
    | some pointer =>
      obtain ⟨_, next, _, rest⟩ := chain
      exact ih next rest

theorem Queue.Holds.linked {cells : List (Nat × α)} (holds : q.Holds cells) : q.Linked (cells.map Prod.snd) where
  chain := ⟨cells, holds.chain, rfl, holds.tail⟩
  count := by rw [holds.count, List.length_map]
  ends := by
    intro tail same
    rcases List.eq_nil_or_concat' cells with rfl | ⟨front, last, rfl⟩
    · rw [holds.tail] at same
      cases same
    · have final : q.tail = some last.1 := by simpa using holds.tail
      cases same.symm.trans final
      exact ⟨_, holds.chain.last, rfl⟩
  empty := by
    have chain := holds.chain
    have tail := holds.tail
    rw [holds.count]
    cases cells with
    | nil =>
      cases head : q.head with
      | none => exact ⟨fun _ => rfl, fun _ => ⟨rfl, tail⟩⟩
      | some pointer =>
        rw [head] at chain
        cases chain
    | cons cell cells =>
      cases head : q.head with
      | none =>
        rw [head] at chain
        cases chain
      | some pointer => simp

theorem queuePeek_spec {cells : List (Nat × α)} (holds : q.Holds cells) : queuePeek q = (cells.map Prod.snd).head? := by
  have chain := holds.chain
  cases cells with
  | nil =>
    have none_ : q.numEl = 0 := holds.count
    simp [queuePeek, none_]
  | cons cell cells =>
    have some_ : q.numEl ≠ 0 := by
      rw [holds.count]
      simp
    cases head : q.head with
    | none =>
      rw [head] at chain
      cases chain
    | some pointer =>
      rw [head] at chain
      obtain ⟨_, next, node, _⟩ := chain
      simp [queuePeek, some_, head, node]

/-- A queue over some nodes that hold these elements. -/
def Queue.Stands (q : Queue α) (elems : List α) : Prop := ∃ cells : List (Nat × α), q.Holds cells ∧ cells.map Prod.snd = elems

/-- One call: the answer of the list, and the list it leaves. -/
theorem Queue.Stands.step (stands : q.Stands elems) (call : Option Nat × QueueCall α) (allocates : q.Allocates call) :
    Alike (fun elems q => Queue.Stands q elems) fifoStep Queue.step elems q call := by
  obtain ⟨cells, holds, rfl⟩ := stands
  obtain ⟨malloc, call⟩ := call
  cases call with
  | enque data =>
    obtain ⟨node, rfl, free⟩ := allocates data rfl
    obtain ⟨after, same, kept⟩ := queueEnque_spec holds free data
    simp only [Alike, fifoStep, Queue.step, same]
    exact ⟨trivial, _, kept, by simp⟩
  | deque =>
    cases cells with
    | nil =>
      have same := queueDeque_empty holds
      simp only [Alike, fifoStep, Queue.step, same]
      exact ⟨rfl, [], holds, rfl⟩
    | cons cell cells =>
      obtain ⟨after, same, kept⟩ := queueDeque_spec holds
      simp only [Alike, fifoStep, Queue.step, same]
      exact ⟨rfl, cells, kept, rfl⟩
  | peek => exact ⟨by simp only [fifoStep, Queue.step, queuePeek_spec holds], cells, holds, rfl⟩

/-- Over every sequence of calls the queue answers as the list, and head, tail and
counter agree about it. -/
theorem queue_refines_fifo (calls : List (Option Nat × QueueCall α)) (allocates : Along Queue.Allocates Queue.step queueNew calls) :
    let run := answers Queue.step (queueNew : Queue α) calls
    let spec := answers fifoStep [] calls
    run.1 = spec.1 ∧ run.2.Linked spec.2 := by
  have start : (queueNew : Queue α).Stands [] := ⟨[], queueNew_holds, rfl⟩
  obtain ⟨same, cells, holds, elems⟩ :=
    answers_alike_along (fun _ _ call stands given => Queue.Stands.step stands call given) allocates start
  refine ⟨same.symm, ?_⟩
  rw [← elems]
  exact holds.linked

/-- Filled, drained and filled again: the second node is where the first one was. -/
private def sampleQueueCalls : List (Option Nat × QueueCall Nat) :=
  [(some 1, .enque 7), (none, .peek), (none, .deque), (none, .deque), (some 1, .enque 8), (some 2, .enque 9), (none, .deque)]

theorem queue_refines_fifo_sample :
    (answers Queue.step (queueNew : Queue Nat) sampleQueueCalls).1 = (answers fifoStep [] sampleQueueCalls).1 ∧
      (answers Queue.step (queueNew : Queue Nat) sampleQueueCalls).1 =
        [.code 0 none, .pointer (some 7), .code 0 (some 7), .code (-1) none, .code 0 none, .code 0 none, .code 0 (some 8)] := by
  refine ⟨(queue_refines_fifo sampleQueueCalls ?_).1, by decide⟩
  refine ⟨fun _ _ => ⟨1, rfl, rfl⟩, ?_, ?_, ?_, fun _ _ => ⟨1, rfl, by decide⟩, fun _ _ => ⟨2, rfl, by decide⟩, ?_, trivial⟩ <;>
  · intro data same
    cases same

end LexiDB
