import LexiDB.Ht

namespace LexiDB

open Lib

namespace Ht

/-- Every stored entry, slot by slot. -/
def items (ht : Ht K V) : List (HtEntry K V) := ht.entries.flatten

/-- What every table keeps, whatever its hash and comparison are. -/
structure Counted (ht : Ht K V) : Prop where
  size : ht.entries.length = ht.capacity
  positive : 0 < ht.capacity
  count : ht.numEntries = ht.items.length

/-- The hash of an entry is that of its key. -/
abbrev entryHash (ops : KeyOps K) (seed : List UInt8) (entry : HtEntry K V) : Nat :=
  ops.hash seed entry.key

/-- A counted table whose entries sit in the chain of their hash. -/
structure Placed (ops : KeyOps K) (ht : Ht K V) : Prop extends Counted ht where
  placed : Lib.Placed (entryHash ops ht.seed) ht.entries

end Ht

theorem htNew_placed (ops : KeyOps K) (seed : List UInt8) (table : Nat) :
    (htNew seed table : Ht K V).Placed ops where
  size := by simp [htNew]
  positive := by simp [htNew, htInitialCap]
  count := by simp [htNew, Ht.items]
  placed := placed_replicate _ _

@[simp] theorem htNew_items (seed : List UInt8) (table : Nat) : (htNew seed table : Ht K V).items = [] := by
  simp [htNew, Ht.items]

section Operations

variable {ops : KeyOps K} {ht : Ht K V}

theorem Ht.Counted.slot_lt (counted : ht.Counted) (ops : KeyOps K) (key : K) :
    htHash ops ht key < ht.entries.length := by
  rw [counted.size]
  exact Nat.mod_lt _ counted.positive

/-- Resizing relinks the same entries into twice as many slots. -/
theorem htResize_spec (placed : ht.Placed ops) (done : htResize ops calloc ht = some after) :
    after.Placed ops ∧ after.items.Perm ht.items ∧ after.seed = ht.seed ∧
      after.capacity = ht.capacity * 2 ∧ after.numEntries = ht.numEntries := by
  obtain ⟨table, _, same⟩ := Option.map_eq_some_iff.mp done
  subst after
  have positive := placed.positive
  obtain ⟨length, kept, perm⟩ := rehash_spec (Ht.entryHash ops ht.seed) ht.entries
    (Nat.mul_pos positive Nat.two_pos)
  refine ⟨⟨⟨length, by simpa using positive, ?_⟩, kept⟩, perm, rfl, rfl, rfl⟩
  simpa [Ht.items] using placed.count.trans perm.length_eq.symm

theorem htReserve_spec (placed : ht.Placed ops) (done : htReserve ops calloc ht = some after) :
    after.Placed ops ∧ after.items.Perm ht.items ∧ after.seed = ht.seed := by
  unfold htReserve at done
  split at done
  · obtain ⟨kept, perm, seed, _⟩ := htResize_spec placed done
    exact ⟨kept, perm, seed⟩
  · cases done
    exact ⟨placed, .refl _, rfl⟩

/-- The growth check leaves room for one more entry. -/
theorem htReserve_room (placed : ht.Placed ops) (room : ht.numEntries ≤ ht.capacity) (done : htReserve ops calloc ht = some after) :
    after.numEntries < after.capacity := by
  have positive := placed.positive
  unfold htReserve at done
  split at done
  · obtain ⟨_, _, _, capacity, count⟩ := htResize_spec placed done
    omega
  · cases done
    omega

theorem htReserve_granted (ops : KeyOps K) (ht : Ht K V) (granted : calloc.isSome) :
    ∃ after, htReserve ops calloc ht = some after := by
  obtain ⟨table, found⟩ := Option.isSome_iff_exists.mp granted
  unfold htReserve
  split
  · exact ⟨_, by simp only [htResize, found, Option.map_some]; rfl⟩
  · exact ⟨_, rfl⟩

/-- Replacing the chain of the searched slot, its members all belonging there. -/
private theorem Ht.Placed.setChain (placed : ht.Placed ops) (key : K) (count : Nat)
    (chain : List (HtEntry K V))
    (here : ∀ entry ∈ chain, Ht.entryHash ops ht.seed entry % ht.entries.length = htHash ops ht key)
    (counted : count + (chainAt ht.entries (htHash ops ht key)).length = ht.numEntries + chain.length) :
    ({ ht with entries := ht.entries.set (htHash ops ht key) chain, numEntries := count } : Ht K V).Placed ops := by
  have inside := placed.slot_lt ops key
  refine ⟨⟨by simpa using placed.size, placed.positive, ?_⟩, placed.placed.set inside here⟩
  have total := flatten_set_length inside chain
  have start := placed.count
  simp only [Ht.items] at start ⊢
  omega

private theorem Ht.Placed.here (placed : ht.Placed ops) (key : K)
    (member : entry ∈ chainAt ht.entries (htHash ops ht key)) :
    Ht.entryHash ops ht.seed entry % ht.entries.length = htHash ops ht key :=
  placed.placed _ entry member

theorem htLink_placed (placed : ht.Placed ops) (key : K) (data : V) :
    (htLink ops ht key data).Placed ops := by
  apply placed.setChain key
  · intro entry member
    rcases List.mem_cons.mp member with same | old
    · subst entry
      rw [placed.size]
      rfl
    · exact placed.here key old
  · simp only [List.length_cons]
    omega

theorem htLink_items (placed : ht.Placed ops) (key : K) (data : V) :
    (htLink ops ht key data).items.Perm (⟨key, data⟩ :: ht.items) :=
  flatten_set_perm (placed.slot_lt ops key) _

/-- Insertion keeps every table well placed, whatever the comparison answers. -/
theorem htInsert_placed (placed : ht.Placed ops) (calloc : Option Nat) (key : K) (data : V) :
    (htInsert ops calloc ht key data).2.Placed ops := by
  unfold htInsert
  split
  · exact placed
  · rename_i reserved done
    obtain ⟨kept, _, _⟩ := htReserve_spec placed done
    simp only
    split
    · rename_i chain walked
      obtain ⟨before, entry, rest, split, result, _, _⟩ := updateFirst?_split walked
      apply kept.setChain key
      · intro other member
        rw [result] at member
        rcases List.mem_append.mp member with old | new
        · exact kept.here key (by rw [split]; exact List.mem_append_left _ old)
        · rcases List.mem_cons.mp new with same | old
          · have home := kept.here key (split ▸ List.mem_append_right before (List.mem_cons_self ..))
            subst other
            exact home
          · exact kept.here key (by rw [split]; simp [old])
      · rw [split, result]
        simp
    · exact htLink_placed kept key data

/-- What an insertion can do to the entries: nothing, where it is refused; give an entry
the key compares equal to a new value; or add one, where none with the bytes of the key
does. -/
theorem htInsert_items (placed : ht.Placed ops) (calloc : Option Nat) (key : K) (data : V) :
    (htInsert ops calloc ht key data).2 = ht ∨
      (∃ entry others, ops.hits key entry = true ∧ ht.items.Perm (entry :: others) ∧
        (htInsert ops calloc ht key data).2.items.Perm ({ entry with value := data } :: others)) ∨
      ((∀ entry ∈ ht.items, ops.raw entry.key = ops.raw key → ops.hits key entry = false) ∧
        (htInsert ops calloc ht key data).2.items.Perm (⟨key, data⟩ :: ht.items)) := by
  unfold htInsert
  split
  · exact .inl rfl
  · rename_i reserved done
    obtain ⟨kept, perm, _⟩ := htReserve_spec placed done
    simp only
    split
    · rename_i chain walked
      obtain ⟨before, entry, rest, split, rfl, hit, _⟩ := updateFirst?_split walked
      obtain ⟨left, right, whole, replaced, _⟩ := buckets_entry (kept.slot_lt ops key) split
      refine .inr (.inl ⟨entry, left ++ right, hit, perm.symm.trans ?_, ?_⟩)
      · rw [Ht.items, whole]
        exact List.perm_middle
      · rw [Ht.items, replaced]
        exact List.perm_middle
    · rename_i walked
      refine .inr (.inr ⟨?_, (htLink_items kept key data).trans (.cons _ perm)⟩)
      intro entry member same
      refine updateFirst?_eq_none.mp walked entry (kept.placed.mem_chainAt.mpr ⟨perm.mem_iff.mpr member, ?_⟩)
      rw [kept.size, Ht.entryHash, KeyOps.hash, same]
      rfl

theorem htTryInsert_placed (placed : ht.Placed ops) (calloc : Option Nat) (key : K) (data : V) :
    (htTryInsert ops calloc ht key data).2.Placed ops := by
  unfold htTryInsert
  split
  · exact placed
  · rename_i reserved done
    obtain ⟨kept, _, _⟩ := htReserve_spec placed done
    split
    · exact kept
    · exact htLink_placed kept key data

/-- The load stays within the number of slots. -/
theorem htInsert_room (placed : ht.Placed ops) (room : ht.numEntries ≤ ht.capacity) (calloc : Option Nat) (key : K) (data : V) :
    (htInsert ops calloc ht key data).2.numEntries ≤ (htInsert ops calloc ht key data).2.capacity := by
  unfold htInsert
  split
  · exact room
  · rename_i reserved done
    have less := htReserve_room placed room done
    simp only
    split
    · exact Nat.le_of_lt less
    · exact less

theorem htTryInsert_room (placed : ht.Placed ops) (room : ht.numEntries ≤ ht.capacity) (calloc : Option Nat) (key : K) (data : V) :
    (htTryInsert ops calloc ht key data).2.numEntries ≤ (htTryInsert ops calloc ht key data).2.capacity := by
  unfold htTryInsert
  split
  · exact room
  · rename_i reserved done
    have less := htReserve_room placed room done
    split
    · exact Nat.le_of_lt less
    · exact less

theorem htDelete_room (room : ht.numEntries ≤ ht.capacity) (key : K) :
    (htDelete ops ht key).2.numEntries ≤ (htDelete ops ht key).2.capacity := by
  unfold htDelete
  simp only
  split
  · exact room
  · simp only
    omega

theorem htDelete_placed (placed : ht.Placed ops) (key : K) : (htDelete ops ht key).2.Placed ops := by
  unfold htDelete
  simp only
  split
  · exact placed
  · rename_i chain walked
    have removed := unlinkFirst?_length walked
    have total := flatten_set_length (placed.slot_lt ops key) chain
    apply placed.setChain key
    · exact fun other member => placed.here key (unlinkFirst?_subset walked member)
    · have start := placed.count
      simp only [Ht.items] at start
      omega

end Operations

section Iteration

variable {ht : Ht K V}

/-- The entries an iterator has still to hand out behind `cur`. -/
def HtIter.pending (iter : HtIter K V) (ht : Ht K V) : List (HtEntry K V) :=
  iter.next ++ (ht.entries.drop (iter.nextSlot + 1)).flatten

/-- The look-ahead is a node, or the iterator is past the last slot. -/
def HtIter.Ready (iter : HtIter K V) (ht : Ht K V) : Prop :=
  iter.endSlot = ht.entries.length ∧
    ((iter.next ≠ [] ∧ iter.nextSlot < iter.endSlot) ∨ (iter.next = [] ∧ iter.nextSlot = iter.endSlot))

private theorem firstChain_none {rows : List (List E)} :
    ∀ slot, firstChain slot rows = none → rows.flatten = [] := by
  induction rows with
  | nil => simp
  | cons row rest ih =>
    intro slot scanned
    cases row with
    | nil => simpa using ih (slot + 1) (by simpa [firstChain] using scanned)
    | cons entry tail => simp [firstChain] at scanned

private theorem firstChain_some {rows : List (List E)} :
    ∀ slot, firstChain slot rows = some (found, chain) →
      chain ≠ [] ∧ slot ≤ found ∧ found < slot + rows.length ∧
        rows.flatten = chain ++ (rows.drop (found - slot + 1)).flatten := by
  induction rows with
  | nil => simp [firstChain]
  | cons row rest ih =>
    intro slot scanned
    cases row with
    | nil =>
      obtain ⟨nonempty, lower, upper, flat⟩ := ih (slot + 1) (by simpa [firstChain] using scanned)
      have shift : found - slot + 1 = (found - (slot + 1) + 1) + 1 := by omega
      refine ⟨nonempty, by omega, by simp only [List.length_cons]; omega, ?_⟩
      rw [shift]
      simpa using flat
    | cons entry tail =>
      simp only [firstChain, Option.some.injEq, Prod.mk.injEq] at scanned
      obtain ⟨same, whole⟩ := scanned
      subst same whole
      simp

/-- A scan makes the iterator ready with exactly the entries from its slot on. -/
private theorem HtIter.seek_spec (iter : HtIter K V) (ht : Ht K V) (bound : iter.endSlot = ht.entries.length) (slot : Nat) :
    (iter.seek ht slot).Ready ht ∧ (iter.seek ht slot).cur = iter.cur ∧
      (iter.seek ht slot).pending ht = (ht.entries.drop slot).flatten := by
  unfold HtIter.seek
  split
  · rename_i found chain scanned
    obtain ⟨nonempty, lower, upper, flat⟩ := firstChain_some slot scanned
    rw [List.length_drop] at upper
    refine ⟨⟨bound, .inl ⟨nonempty, by simp only [bound]; omega⟩⟩, rfl, ?_⟩
    simp only [HtIter.pending]
    rw [flat, List.drop_drop]
    congr 3
    omega
  · rename_i scanned
    refine ⟨⟨bound, .inr ⟨rfl, rfl⟩⟩, rfl, ?_⟩
    have past : ht.entries.drop (iter.endSlot + 1) = [] := List.drop_eq_nil_of_le (by omega)
    simp [HtIter.pending, past, firstChain_none slot scanned]

/-- One step hands out the look-ahead and drops it from what is pending. -/
theorem htIterNext_ready {iter : HtIter K V} (ready : iter.Ready ht) :
    (htIterNext ht iter).Ready ht ∧ (htIterNext ht iter).cur = iter.next ∧
      (htIterNext ht iter).pending ht = (iter.pending ht).tail := by
  obtain ⟨bound, state⟩ := ready
  rcases state with ⟨occupied, inside⟩ | ⟨empty, past⟩
  · obtain ⟨entry, tail, chain⟩ := List.exists_cons_of_ne_nil occupied
    have notPast : iter.nextSlot ≠ iter.endSlot := by omega
    by_cases more : tail = []
    · -- the chain is used up: the next occupied slot follows
      have stepped : htIterNext ht iter = ({ iter with cur := iter.next }).seek ht (iter.nextSlot + 1) := by
        simp [htIterNext, notPast, chain, more]
      obtain ⟨ready, cur, pending⟩ :=
        ({ iter with cur := iter.next } : HtIter K V).seek_spec ht bound (iter.nextSlot + 1)
      rw [stepped]
      exact ⟨ready, cur, by rw [pending, HtIter.pending, chain, more]; rfl⟩
    · have stepped : htIterNext ht iter = { iter with cur := iter.next, next := tail } := by
        simp [htIterNext, notPast, chain, more]
      rw [stepped]
      exact ⟨⟨bound, .inl ⟨more, inside⟩⟩, rfl, by simp [HtIter.pending, chain]⟩
  · have stepped : htIterNext ht iter = { iter with cur := iter.next, next := [] } := by
      simp [htIterNext, past]
    have none : ht.entries.drop (iter.nextSlot + 1) = [] := List.drop_eq_nil_of_le (by omega)
    rw [stepped]
    exact ⟨⟨bound, .inr ⟨rfl, past⟩⟩, rfl, by simp [HtIter.pending, empty, none]⟩

/-- What is pending starts with the look-ahead, or there is none. -/
private theorem HtIter.Ready.pending_head {iter : HtIter K V} (ready : iter.Ready ht) :
    (iter.pending ht).head? = iter.next.head? := by
  obtain ⟨bound, state⟩ := ready
  rcases state with ⟨occupied, _⟩ | ⟨empty, past⟩
  · obtain ⟨head, tail, chain⟩ := List.exists_cons_of_ne_nil occupied
    simp [HtIter.pending, chain]
  · have none : ht.entries.drop (iter.nextSlot + 1) = [] := List.drop_eq_nil_of_le (by omega)
    simp [HtIter.pending, empty, none]

/-- The iterator stands at `cur` with `entries` to hand out from there on. -/
def HtIter.At (iter : HtIter K V) (ht : Ht K V) (entries : List (HtEntry K V)) : Prop :=
  iter.Ready ht ∧ iter.cur.head? = entries.head? ∧ (entries ≠ [] → iter.pending ht = entries.tail)

theorem HtIter.At.cur_nil {iter : HtIter K V} (at_ : iter.At ht entries) : iter.cur = [] ↔ entries = [] := by
  have heads := at_.2.1
  constructor
  · intro empty
    simpa [empty] using heads.symm
  · intro empty
    simpa [empty] using heads

theorem htIterNext_at {iter : HtIter K V} (at_ : iter.At ht (entry :: entries)) :
    (htIterNext ht iter).At ht entries := by
  obtain ⟨ready, _, pending⟩ := at_
  obtain ⟨nextReady, cur, rest⟩ := htIterNext_ready ready
  have same : iter.pending ht = entries := pending (by simp)
  refine ⟨nextReady, ?_, fun _ => by rw [rest, same]⟩
  rw [cur, ← same, ready.pending_head]

/-- A fresh iterator stands at the first entry with the rest to hand out. -/
private theorem htIterNew_ready (counted : ht.Counted) :
    (htIterNew ht).Ready ht ∧ (htIterNew ht).cur.head? = ht.items.head? ∧ (htIterNew ht).pending ht = ht.items.tail := by
  have size := counted.size
  have positive := counted.positive
  have started : htIterNext ht ⟨[], [], 0, ht.capacity⟩ =
      (⟨[], [], 0, ht.capacity⟩ : HtIter K V).seek ht 0 := by
    simp [htIterNext, Nat.ne_of_lt positive]
  obtain ⟨ready, _, pending⟩ := (⟨[], [], 0, ht.capacity⟩ : HtIter K V).seek_spec ht size.symm 0
  obtain ⟨nextReady, cur, rest⟩ := htIterNext_ready ready
  have all : ((⟨[], [], 0, ht.capacity⟩ : HtIter K V).seek ht 0).pending ht = ht.items := by
    simpa [Ht.items] using pending
  unfold htIterNew
  rw [started]
  exact ⟨nextReady, by rw [cur, ← all, ready.pending_head], by rw [rest, all]⟩

/-- A fresh iterator stands before all entries of the table. -/
theorem htIterNew_at (counted : ht.Counted) : (htIterNew ht).At ht ht.items := by
  obtain ⟨ready, cur, pending⟩ := htIterNew_ready counted
  exact ⟨ready, cur, fun _ => pending⟩

/-- After any number of steps, past the end too, it stands at the entry of that
number. -/
theorem htIterNew_steps (counted : ht.Counted) (k : Nat) :
    ((htIterNext ht)^[k] (htIterNew ht)).Ready ht ∧ ((htIterNext ht)^[k] (htIterNew ht)).cur.head? = ht.items[k]? ∧
      ((htIterNext ht)^[k] (htIterNew ht)).pending ht = ht.items.drop (k + 1) := by
  induction k with
  | zero => simpa [List.head?_eq_getElem?] using htIterNew_ready counted
  | succ k ih =>
    obtain ⟨ready, _, pending⟩ := ih
    obtain ⟨nextReady, cur, rest⟩ := htIterNext_ready ready
    rw [Function.iterate_succ_apply']
    refine ⟨nextReady, ?_, ?_⟩
    · rw [cur, ← ready.pending_head, pending, List.head?_drop]
    · rw [rest, pending, List.tail_drop]

end Iteration

end LexiDB
