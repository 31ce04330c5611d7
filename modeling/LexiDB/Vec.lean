import LexiDB.Lib.Exec

/-! The growable array of vec.c, one slot per element. A slot that was never
written holds zero bytes, which is the `default` of the element type. -/

namespace LexiDB

open Lib

def vecInitialCap : Nat := 2

/-- `SIZE_MAX + 1`. -/
def sizeMod : Nat := 18446744073709551616

structure Vec (α : Type) where
  address : Nat
  len : Nat
  cap : Nat
  slots : List α

variable {α : Type} [Inhabited α]

def vecNew (address : Nat) : Vec α :=
  ⟨address, 0, vecInitialCap, List.replicate vecInitialCap default⟩

def vecRealloc (realloc : Option Nat) (vec : Vec α) : Option (Vec α) :=
  realloc.map fun address =>
    let cap := vec.cap * 2
    ⟨address, vec.len, cap, vec.slots.take vec.len ++ List.replicate (cap - vec.len) default⟩

def vecPush (realloc : Option Nat) (vec : Vec α) (data : α) : Int × Vec α :=
  match (if vec.len = vec.cap then vecRealloc realloc vec else some vec) with
  | none => (-1, vec)
  | some vec => (0, { vec with slots := vec.slots.set vec.len data, len := vec.len + 1 })

/-- `vec_pop`; the element it copies out, or `none` for -1. -/
def vecPop (vec : Vec α) : Option α × Vec α :=
  if vec.len = 0 then (none, vec)
  else (some (vec.slots.getD (vec.len - 1) default), { vec with len := vec.len - 1 })

def vecGetAt (vec : Vec α) (idx : Nat) : Option α :=
  if idx ≥ vec.len then none else some (vec.slots.getD idx default)

/-- `vec_remove_at`: the tail moves down one slot and the last one is cleared. -/
def vecRemoveAt (vec : Vec α) (idx : Nat) : Int × Vec α :=
  if idx ≥ vec.len then (-1, vec)
  else
    (0, { vec with
      slots := vec.slots.take idx ++ (vec.slots.take vec.len).drop (idx + 1) ++
        default :: vec.slots.drop vec.len
      len := vec.len - 1 })

/-- `vec_find`: the first index whose element compares equal, and the element. -/
def vecFind (vec : Vec α) (equal : α → Bool) : Option (Nat × α) :=
  ((List.range vec.len).find? fun i => equal (vec.slots.getD i default)).map fun i =>
    (i, vec.slots.getD i default)

/-- A position in the array stands for the pointer to its slot. -/
structure VecIter where
  cur : Option Nat
  next : Option Nat
  nextIdx : Nat
  endIdx : Nat

def vecIterNext (iter : VecIter) : VecIter :=
  { iter with
    cur := iter.next
    next := if iter.nextIdx > iter.endIdx then none else some iter.nextIdx
    nextIdx := (iter.nextIdx + 1) % sizeMod }

/-- `end_idx` is `len - 1` in unsigned arithmetic. -/
def vecIterNew (vec : Vec α) : VecIter :=
  vecIterNext (vecIterNext ⟨none, none, 0, (vec.len + (sizeMod - 1)) % sizeMod⟩)

namespace Vec

/-- The elements in use. -/
def elems (vec : Vec α) : List α := vec.slots.take vec.len

structure Valid (vec : Vec α) : Prop where
  size : vec.slots.length = vec.cap
  room : vec.len ≤ vec.cap
  minimal : vecInitialCap ≤ vec.cap

omit [Inhabited α] in
theorem Valid.length {vec : Vec α} (valid : vec.Valid) : vec.elems.length = vec.len := by
  have size := valid.size
  have room := valid.room
  simp only [elems, List.length_take]
  omega

end Vec

theorem vecNew_valid (address : Nat) : (vecNew address : Vec α).Valid :=
  ⟨by simp [vecNew], by simp [vecNew], Nat.le_refl _⟩

@[simp] theorem vecNew_elems (address : Nat) : (vecNew address : Vec α).elems = [] := rfl

omit [Inhabited α] in
private theorem vecStore_spec {vec : Vec α} (valid : vec.Valid) (free : vec.len < vec.cap) (data : α) :
    ({ vec with slots := vec.slots.set vec.len data, len := vec.len + 1 } : Vec α).Valid ∧
      ({ vec with slots := vec.slots.set vec.len data, len := vec.len + 1 } : Vec α).elems =
        vec.elems ++ [data] := by
  have size := valid.size
  refine ⟨⟨by simpa using size, free, valid.minimal⟩, ?_⟩
  simp only [Vec.elems]
  rw [List.take_succ_eq_append_getElem (by simp; omega), List.take_set_of_le (by omega)]
  simp

/-- Pushing appends one element. -/
theorem vecPush_spec {vec : Vec α} (valid : vec.Valid) (granted : vec.len = vec.cap → realloc.isSome) (data : α) :
    ∃ after, vecPush realloc vec data = (0, after) ∧ after.Valid ∧ after.elems = vec.elems ++ [data] := by
  by_cases full : vec.len = vec.cap
  · obtain ⟨address, found⟩ := Option.isSome_iff_exists.mp (granted full)
    have size := valid.size
    have minimal := valid.minimal
    have grown : vecRealloc realloc vec = some ⟨address, vec.len, vec.cap * 2,
        vec.slots.take vec.len ++ List.replicate (vec.cap * 2 - vec.len) default⟩ := by
      simp [vecRealloc, found]
    simp only [vecInitialCap] at minimal
    have larger : (⟨address, vec.len, vec.cap * 2,
        vec.slots.take vec.len ++ List.replicate (vec.cap * 2 - vec.len) default⟩ : Vec α).Valid := by
      refine ⟨?_, ?_, ?_⟩
      · simp only [List.length_append, List.length_take, List.length_replicate]
        omega
      · simp only
        omega
      · simp only [vecInitialCap]
        omega
    obtain ⟨kept, pushed⟩ := vecStore_spec larger (by simp only; omega) data
    refine ⟨_, by simp only [vecPush, if_pos full, grown], kept, pushed.trans ?_⟩
    simp only [Vec.elems]
    rw [List.take_append_of_le_length (by simp; omega), List.take_take, Nat.min_self]
  · obtain ⟨kept, pushed⟩ := vecStore_spec valid (Nat.lt_of_le_of_ne valid.room full) data
    exact ⟨_, by simp only [vecPush, if_neg full], kept, pushed⟩

/-- Popping hands out the last element. -/
theorem vecPop_spec {vec : Vec α} (valid : vec.Valid) :
    (vecPop vec).1 = vec.elems.getLast? ∧ (vecPop vec).2.Valid ∧ (vecPop vec).2.elems = vec.elems.dropLast := by
  have size := valid.size
  have room := valid.room
  by_cases empty : vec.len = 0
  · have none : vec.elems = [] := by simp [Vec.elems, empty]
    simp only [vecPop, if_pos empty, none]
    exact ⟨rfl, valid, rfl⟩
  · simp only [vecPop, if_neg empty]
    refine ⟨?_, ⟨size, by simp only; omega, valid.minimal⟩, ?_⟩
    · rw [List.getLast?_eq_getElem?, valid.length, Vec.elems, List.getElem?_take, if_pos (by omega)]
      simp only [List.getD_eq_getElem?_getD]
      rw [List.getElem?_eq_getElem (by omega), Option.getD_some]
    · rw [List.dropLast_eq_take, valid.length]
      simp only [Vec.elems, List.take_take]
      rw [Nat.min_eq_left (by omega)]

/-- Removing takes out the element at the index and keeps the order. -/
theorem vecRemoveAt_spec {vec : Vec α} (valid : vec.Valid) (inside : idx < vec.len) :
    ∃ after, vecRemoveAt vec idx = (0, after) ∧ after.Valid ∧ after.elems = vec.elems.eraseIdx idx := by
  have size := valid.size
  have room := valid.room
  have front : (vec.slots.take idx).length = idx := by simp; omega
  have back : ((vec.slots.take vec.len).drop (idx + 1)).length = vec.len - (idx + 1) := by simp; omega
  refine ⟨_, if_neg (by omega), ⟨?_, ?_, valid.minimal⟩, ?_⟩
  · simp only [List.length_append, front, back, List.length_cons, List.length_drop]
    omega
  · simp only
    omega
  · have used : (vec.slots.take idx ++ (vec.slots.take vec.len).drop (idx + 1)).length = vec.len - 1 := by
      rw [List.length_append, front, back]
      omega
    simp only [Vec.elems]
    rw [List.take_left' used, List.eraseIdx_eq_take_drop_succ, List.take_take, Nat.min_eq_left (by omega)]

theorem Vec.Valid.getElem? {vec : Vec α} (valid : vec.Valid) (inside : i < vec.len) :
    vec.elems[i]? = some (vec.slots.getD i default) := by
  have size := valid.size
  have room := valid.room
  rw [Vec.elems, List.getElem?_take_of_lt inside, List.getD_eq_getElem?_getD, List.getElem?_eq_getElem (by omega),
    Option.getD_some]

/-- Nothing is found where nothing compares equal. -/
theorem vecFind_eq_none {vec : Vec α} {equal : α → Bool} (valid : vec.Valid) (missing : vecFind vec equal = none) :
    ∀ elem ∈ vec.elems, equal elem = false := by
  intro elem member
  obtain ⟨i, inside, same⟩ := List.getElem_of_mem member
  rw [valid.length] at inside
  have here := valid.getElem? inside
  rw [List.getElem?_eq_getElem (by rw [valid.length]; exact inside), same] at here
  have none_ := List.find?_eq_none.mp (Option.map_eq_none_iff.mp missing) i (List.mem_range.mpr inside)
  rw [← Option.some.inj here] at none_
  simpa using none_

/-- What is found is the first that compares equal. -/
theorem vecFind_eq_some {vec : Vec α} {equal : α → Bool} (valid : vec.Valid) (found : vecFind vec equal = some (i, elem)) :
    vec.elems[i]? = some elem ∧ equal elem = true ∧ ∀ j < i, ∀ other, vec.elems[j]? = some other → equal other = false := by
  obtain ⟨index, first, same⟩ := Option.map_eq_some_iff.mp found
  cases same
  have inside := List.mem_range.mp (List.mem_of_find?_eq_some first)
  refine ⟨valid.getElem? inside, by simpa using List.find?_some first, ?_⟩
  intro j before other here
  rw [valid.getElem? (Nat.lt_trans before inside)] at here
  have earlier := (List.find?_range_eq_some.mp first).2.2 j before
  rw [← Option.some.inj here]
  simpa using earlier

/-- An iterator over `count` elements, standing at index `i` with the one after
it looked ahead. -/
def VecIter.At (iter : VecIter) (count i : Nat) : Prop :=
  iter.endIdx + 1 = count ∧ iter.nextIdx = i + 2 ∧ (iter.cur = if i < count then some i else none) ∧
    (iter.next = if i + 1 < count then some (i + 1) else none)

omit [Inhabited α] in
theorem vecIterNew_at {vec : Vec α} (nonempty : 0 < vec.len) (bound : vec.len < sizeMod) :
    (vecIterNew vec).At vec.len 0 := by
  have last : (vec.len + (sizeMod - 1)) % sizeMod = vec.len - 1 := by
    simp only [sizeMod] at *
    omega
  have one : 1 % sizeMod = 1 := by decide
  have two : 2 % sizeMod = 2 := by decide
  simp only [VecIter.At, vecIterNew, vecIterNext, last, Nat.zero_add, one, two]
  refine ⟨by omega, trivial, ?_, ?_⟩
  · simp [nonempty]
  · by_cases more : 1 < vec.len
    · simp [more, show ¬ 1 > vec.len - 1 by omega]
    · simp [more, show 1 > vec.len - 1 by omega]

theorem vecIterNext_at {iter : VecIter} (at_ : iter.At count i) (inside : i < count) (bound : count + 2 < sizeMod) :
    (vecIterNext iter).At count (i + 1) := by
  obtain ⟨last, position, _, ahead⟩ := at_
  have wrap : (i + 3) % sizeMod = i + 3 := Nat.mod_eq_of_lt (by omega)
  simp only [VecIter.At, vecIterNext, position, ahead, wrap]
  refine ⟨last, trivial, trivial, ?_⟩
  by_cases more : i + 2 < count
  · simp [more, show ¬ i + 2 > iter.endIdx by omega]
  · simp [more, show i + 2 > iter.endIdx by omega]

end LexiDB
