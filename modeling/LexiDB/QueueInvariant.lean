import LexiDB.Queue

/-! The linked queue against the list of the values in it. -/

namespace LexiDB

variable {α : Type} {nodes other : Nat → Option (QNode α)} {q : Queue α}

/-- The nodes from this pointer on, each at its address, up to a NULL. -/
def Queue.Chain (nodes : Nat → Option (QNode α)) : Option Nat → List (Nat × α) → Prop
  | none, [] => True
  | some pointer, cell :: cells =>
    cell.1 = pointer ∧ ∃ next, nodes pointer = some ⟨next, cell.2⟩ ∧ Queue.Chain nodes next cells
  | _, _ => False

/-- The chain from `head` is counted, ends at `tail` and meets no node twice. -/
structure Queue.Holds (q : Queue α) (cells : List (Nat × α)) : Prop where
  count : q.numEl = cells.length
  chain : Queue.Chain q.nodes q.head cells
  tail : q.tail = (cells.map Prod.fst).getLast?
  nodup : (cells.map Prod.fst).Nodup

theorem queueNew_holds : (queueNew : Queue α).Holds [] := ⟨rfl, trivial, rfl, List.nodup_nil⟩

/-- A chain does not see the nodes it does not pass. -/
theorem Queue.Chain.frame {cells : List (Nat × α)} (same : ∀ pointer ∈ cells.map Prod.fst, other pointer = nodes pointer) :
    ∀ head, Queue.Chain nodes head cells → Queue.Chain other head cells := by
  induction cells with
  | nil =>
    intro head chain
    cases head <;> exact chain
  | cons cell cells ih =>
    intro head chain
    cases head with
    | none => exact chain
    | some pointer =>
      obtain ⟨here, next, node, rest⟩ := chain
      refine ⟨here, next, ?_, ih (fun pointer member => same pointer (List.mem_cons_of_mem _ member)) next rest⟩
      rw [same pointer (by simp [here])]
      exact node

/-- Every cell of a chain is a live node. -/
theorem Queue.Chain.live {cells : List (Nat × α)} :
    ∀ head, Queue.Chain nodes head cells → ∀ cell ∈ cells, ∃ next, nodes cell.1 = some ⟨next, cell.2⟩ := by
  induction cells with
  | nil =>
    intro head _ cell member
    cases member
  | cons first cells ih =>
    intro head chain cell member
    cases head with
    | none => cases chain
    | some pointer =>
      obtain ⟨here, next, node, rest⟩ := chain
      rcases List.mem_cons.mp member with same | later
      · rw [same, here]
        exact ⟨next, node⟩
      · exact ih next rest cell later

/-- Linking a node behind the last one makes the chain longer by it. -/
theorem Queue.Chain.link {cells : List (Nat × α)} (last : Nat × α) (node : Nat) (data : α)
    (kept : ∀ pointer ∈ cells.map Prod.fst, other pointer = nodes pointer)
    (linked : other last.1 = some ⟨some node, last.2⟩) (stored : other node = some ⟨none, data⟩) :
    ∀ head, Queue.Chain nodes head (cells ++ [last]) → Queue.Chain other head (cells ++ [last] ++ [(node, data)]) := by
  induction cells with
  | nil =>
    intro head chain
    cases head with
    | none => cases chain
    | some pointer =>
      obtain ⟨here, _⟩ := chain
      refine ⟨here, some node, ?_, rfl, none, stored, trivial⟩
      rw [← here]
      exact linked
  | cons cell cells ih =>
    intro head chain
    cases head with
    | none => cases chain
    | some pointer =>
      obtain ⟨here, next, found, rest⟩ := chain
      refine ⟨here, next, ?_, ih (fun pointer member => kept pointer (List.mem_cons_of_mem _ member)) next rest⟩
      rw [kept pointer (by simp [here])]
      exact found

/-- A node that was not in use goes behind the last one. -/
theorem queueEnque_spec {cells : List (Nat × α)} (holds : q.Holds cells) (free : q.nodes node = none) (data : α) :
    ∃ after, queueEnque (some node) q data = (0, after) ∧ after.Holds (cells ++ [(node, data)]) := by
  have fresh : node ∉ cells.map Prod.fst := by
    intro member
    obtain ⟨cell, present, rfl⟩ := List.mem_map.mp member
    obtain ⟨next, live⟩ := holds.chain.live _ cell present
    rw [free] at live
    cases live
  have nodup : ((cells ++ [(node, data)]).map Prod.fst).Nodup := by
    rw [List.map_append, List.nodup_append]
    refine ⟨holds.nodup, by simp, ?_⟩
    intro pointer member other only same
    rw [same, List.mem_singleton.mp only] at member
    exact fresh member
  rcases List.eq_nil_or_concat' cells with rfl | ⟨front, last, rfl⟩
  · have one : q.numEl + 1 = 1 := by rw [holds.count]; rfl
    refine ⟨_, if_pos one, one, ?_, rfl, nodup⟩
    exact ⟨rfl, none, by simp [Queue.store], trivial⟩
  · have more : q.numEl + 1 ≠ 1 := by
      rw [holds.count]
      simp
    have tail : q.tail = some last.1 := by simpa using holds.tail
    have different : last.1 ≠ node := by
      intro same
      exact fresh (by simp [← same])
    obtain ⟨next, live⟩ := holds.chain.live _ last (by simp)
    have unlinked : ∀ pointer ∈ front.map Prod.fst, pointer ≠ last.1 ∧ pointer ≠ node := by
      intro pointer member
      have apart := holds.nodup
      rw [List.map_append, List.nodup_append] at apart
      refine ⟨apart.2.2 pointer member last.1 (by simp), ?_⟩
      intro same
      exact fresh (by rw [List.map_append]; exact List.mem_append_left _ (same ▸ member))
    refine ⟨_, if_neg more, ?_, ?_, by simp, nodup⟩
    · simp [Queue.store, tail, holds.count]
    · simp only [Queue.store, tail, Option.elim_some]
      refine Queue.Chain.link last node data ?_ ?_ ?_ q.head holds.chain
      · intro pointer member
        simp [unlinked pointer member]
      · simp [different, live]
      · simp [Ne.symm different]

/-- The first node goes, and its value is handed out. -/
theorem queueDeque_spec {cells : List (Nat × α)} {cell : Nat × α} (holds : q.Holds (cell :: cells)) :
    ∃ after, queueDeque q = (some cell.2, after) ∧ after.Holds cells := by
  have some_ : q.numEl ≠ 0 := by
    rw [holds.count]
    simp
  have count : q.numEl - 1 = cells.length := by
    rw [holds.count]
    simp
  have chain := holds.chain
  cases head : q.head with
  | none =>
    rw [head] at chain
    cases chain
  | some pointer =>
    rw [head] at chain
    obtain ⟨here, next, found, rest⟩ := chain
    obtain ⟨apart, nodup⟩ := List.nodup_cons.mp holds.nodup
    rw [here] at apart
    have looked : (q.head.bind fun head => (q.nodes head).map fun node => (head, node)) =
        some (pointer, ⟨next, cell.2⟩) := by
      simp [head, found]
    have freed : Queue.Chain (q.store pointer none).nodes next cells := by
      refine rest.frame ?_ next
      intro other member
      have different : other ≠ pointer := fun same => apart (by rwa [← same])
      simp [Queue.store, different]
    simp only [queueDeque, some_, ↓reduceIte, looked, count]
    cases cells with
    | nil => exact ⟨_, rfl, rfl, trivial, rfl, nodup⟩
    | cons second later =>
      refine ⟨_, rfl, rfl, freed, ?_, nodup⟩
      simpa [Queue.store] using holds.tail

theorem queueDeque_empty (holds : q.Holds []) : queueDeque q = (none, q) := by
  have none : q.numEl = 0 := holds.count
  simp [queueDeque, none]

end LexiDB
