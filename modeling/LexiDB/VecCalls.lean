import Mathlib.Data.List.Find
import LexiDB.Lib.Bytes
import LexiDB.Lib.Lockstep
import LexiDB.RawVec

/-! The vector under every sequence of calls, and what its iterator visits. -/

namespace LexiDB

open Lib

section Iterator

variable {α : Type} [Inhabited α] {vec : Vec α}

/-- The loop `while (iter.cur)` with `vec_iter_next` at its end: the slots that `cur`
points to, one after the other. -/
def vecIterVisits : Nat → VecIter → Except Halt (List Nat)
  | 0, _ => .error .fuel
  | fuel + 1, iter =>
    match iter.cur with
    | none => .ok []
    | some slot => do
      let rest ← vecIterVisits fuel (vecIterNext iter)
      return slot :: rest

/-- The loop comes to its end and has visited the elements in order, each once. -/
def Vec.IteratesExactly (vec : Vec α) : Prop :=
  ∃ enough, ∀ fuel, enough ≤ fuel → vecIterVisits fuel (vecIterNew vec) = .ok (List.range vec.len)

/-- An iterator inside the elements. The index that it looks ahead with is a `size_t`
and may have come around behind the last one. -/
structure VecIter.Inside (iter : VecIter) (count i : Nat) : Prop where
  last : iter.endIdx + 1 = count
  position : iter.nextIdx = (i + 2) % sizeMod
  cur : iter.cur = some i
  next : iter.next = if i + 1 < count then some (i + 1) else none

omit [Inhabited α] in
theorem vecIterNew_inside (some_ : vec.len ≠ 0) (bound : vec.len < sizeMod) : (vecIterNew vec).Inside vec.len 0 := by
  obtain ⟨last, position, cur, next⟩ := vecIterNew_at (Nat.pos_of_ne_zero some_) bound
  exact ⟨last, position, by rw [cur, if_pos (Nat.pos_of_ne_zero some_)], next⟩

theorem VecIter.Inside.step {iter : VecIter} (inside : iter.Inside count i) (more : i + 1 < count) (bound : count < sizeMod) :
    (vecIterNext iter).Inside count (i + 1) := by
  obtain ⟨last, position, _, next⟩ := inside
  have straight : (i + 2) % sizeMod = i + 2 := Nat.mod_eq_of_lt (by omega)
  rw [straight] at position
  refine ⟨last, by simp only [vecIterNext, position], by simp only [vecIterNext, next, if_pos more], ?_⟩
  by_cases further : i + 2 < count
  · simp [vecIterNext, position, further, show ¬ i + 2 > iter.endIdx by omega]
  · simp [vecIterNext, position, further, show i + 2 > iter.endIdx by omega]

/-- From here on the loop visits the slots that are left. -/
theorem VecIter.Inside.visits (bound : count < sizeMod) :
    ∀ left i iter, VecIter.Inside iter count i → i + left + 1 = count → ∀ fuel, left + 2 ≤ fuel →
      vecIterVisits fuel iter = .ok (List.range' i (left + 1)) := by
  intro left
  induction left with
  | zero =>
    intro i iter inside whole fuel enough
    obtain ⟨less, rfl⟩ := Nat.exists_eq_add_of_le' enough
    have stops : (vecIterNext iter).cur = none := by
      simp only [vecIterNext, inside.next, if_neg (show ¬ i + 1 < count by omega)]
    simp [vecIterVisits, inside.cur, stops]
  | succ left ih =>
    intro i iter inside whole fuel enough
    obtain ⟨less, rfl⟩ : ∃ less, fuel = less + 1 := ⟨fuel - 1, by omega⟩
    have rest := ih (i + 1) (vecIterNext iter) (inside.step (by omega) bound) (by omega) less (by omega)
    rw [vecIterVisits, inside.cur]
    simp only [rest, ok_bind, pure_eq_ok]
    rfl

/-- An iterator that ends at the largest index there is never comes to its end. -/
theorem vecIterVisits_astray {iter : VecIter} (last : iter.endIdx = sizeMod - 1) (position : iter.nextIdx < sizeMod)
    (cur : iter.cur.isSome) (next : iter.next.isSome) (fuel : Nat) : vecIterVisits fuel iter = .error .fuel := by
  induction fuel generalizing iter with
  | zero => rfl
  | succ fuel ih =>
    obtain ⟨slot, here⟩ := Option.isSome_iff_exists.mp cur
    have before : ¬ iter.nextIdx > iter.endIdx := by omega
    have rest : vecIterVisits fuel (vecIterNext iter) = .error .fuel := ih last (Nat.mod_lt _ (by decide)) next (by simp [vecIterNext, before])
    simp [vecIterVisits, here, rest]

omit [Inhabited α] in
/-- The last index of an empty vector is `0 - 1`. -/
theorem vecIterVisits_empty (empty : vec.len = 0) (fuel : Nat) : vecIterVisits fuel (vecIterNew vec) = .error .fuel := by
  refine vecIterVisits_astray ?_ (Nat.mod_lt _ (by decide)) ?_ ?_ fuel <;>
  · simp only [vecIterNew, vecIterNext, empty]
    decide

omit [Inhabited α] in
/-- Every vector but the empty one is iterated exactly. -/
theorem iteratesExactly_iff (vec : Vec α) (bound : vec.len < sizeMod) : vec.IteratesExactly ↔ vec.len ≠ 0 := by
  constructor
  · rintro ⟨enough, visited⟩ empty
    have ended := visited enough (Nat.le_refl enough)
    rw [vecIterVisits_empty empty] at ended
    cases ended
  · intro some_
    refine ⟨vec.len + 1, fun fuel enough => ?_⟩
    have start := vecIterNew_inside some_ bound
    have visited := start.visits bound (vec.len - 1) 0 _ (by omega) fuel (by omega)
    rw [visited, List.range_eq_range', Nat.sub_add_cancel (Nat.pos_of_ne_zero some_)]

theorem iteratesExactly_iff_one : (vecPush none (vecNew 0) 7 : Int × Vec Nat).2.IteratesExactly :=
  (iteratesExactly_iff _ (by decide)).mpr (by decide)

theorem iteratesExactly_counterexample : ¬ (vecNew 0 : Vec Nat).IteratesExactly := by
  rintro ⟨enough, visited⟩
  have ended := visited enough (Nat.le_refl enough)
  rw [vecIterVisits_empty rfl] at ended
  cases ended

end Iterator

section Bytes

/-- The bytes of one element. -/
structure Block (width : Nat) where
  bytes : List UInt8
  length : bytes.length = width

instance : Inhabited (Block width) := ⟨⟨List.replicate width 0, List.length_replicate⟩⟩

/-- The blocks one behind the other. -/
def laidOut (blocks : List (Block width)) : List UInt8 := (blocks.map Block.bytes).flatten

theorem uniform_blocks (blocks : List (Block width)) : Uniform width (blocks.map Block.bytes) :=
  List.forall_mem_map.mpr fun block _ => block.length

/-- The vector of bytes shows this vector of elements, and all of it has an address. -/
structure RawVec.Shows (raw : RawVec) (vec : Vec (Block width)) : Prop where
  address : raw.address = vec.address
  len : raw.len = vec.len
  cap : raw.cap = vec.cap
  dataSize : raw.dataSize = width
  data : raw.data = laidOut vec.slots
  positive : 0 < width
  fits : sizeofVec + vec.cap * width < sizeMod

variable {width : Nat} {raw : RawVec} {vec : Vec (Block width)}

/-- No offset wraps around. -/
theorem RawVec.Shows.offset (shows_ : raw.Shows vec) (inside : i ≤ vec.cap) : i * width % sizeMod = i * width := by
  have fits := shows_.fits
  have below : i * width ≤ vec.cap * width := Nat.mul_le_mul_right width inside
  exact Nat.mod_eq_of_lt (by omega)

/-- Loading an element loads the bytes of its slot. -/
theorem RawVec.Shows.load (shows_ : raw.Shows vec) (valid : vec.Valid) (inside : i < vec.cap) :
    Lib.load raw.data (i * width % sizeMod) width = (vec.slots.getD i default).bytes := by
  have size := valid.size
  have here : i < (vec.slots.map Block.bytes).length := by
    rw [List.length_map]
    omega
  rw [shows_.offset (Nat.le_of_lt inside), shows_.data, laidOut, (uniform_blocks _).load_block here, List.getElem_map,
    List.getD_eq_getElem?_getD, List.getElem?_eq_getElem (by omega), Option.getD_some]

/-- Storing an element sets its slot. -/
theorem laidOut_set (blocks : List (Block width)) (block : Block width) (inside : i < blocks.length) :
    store (laidOut blocks) (i * width) block.bytes = laidOut (blocks.set i block) := by
  rw [laidOut, (uniform_blocks blocks).store_block block.length (by rwa [List.length_map]), laidOut, List.map_set]

/-- Clearing the end of a buffer. -/
theorem memset_end {buf : List UInt8} (whole : start + count = buf.length) (byte : UInt8) :
    memset buf start byte count = buf.take start ++ List.replicate count byte := by
  rw [memset, store, List.length_replicate, whole, List.drop_length, List.append_nil]

theorem Grant.resized_length (grant : Grant) (buf : List UInt8) (size : Nat) : (grant.resized buf size).length = size := by
  simp only [Grant.resized, List.length_append, List.length_take, List.length_map, List.length_range]
  omega

theorem laidOut_default (count : Nat) : laidOut (List.replicate count (default : Block width)) = List.replicate (count * width) 0 := by
  rw [laidOut, List.map_replicate]
  exact List.flatten_replicate_replicate

theorem laidOut_length (blocks : List (Block width)) : (laidOut blocks).length = blocks.length * width := by
  rw [laidOut, (uniform_blocks blocks).length_flatten, List.length_map]

theorem laidOut_append (blocks others : List (Block width)) : laidOut (blocks ++ others) = laidOut blocks ++ laidOut others := by
  simp [laidOut]

/-- The block for so many elements is granted, and there is one of that size. -/
def Granted (answer : Option Grant) (cap dataSize : Nat) : Prop := answer.isSome ∧ sizeofVec + cap * dataSize < sizeMod

theorem RawVec.vecNew_shows {malloc : Option Grant} (positive : 0 < width) (granted : Granted malloc vecInitialCap width)
    (created : RawVec.vecNew malloc width = some raw) : raw.Shows (LexiDB.vecNew raw.address : Vec (Block width)) := by
  obtain ⟨_, fits⟩ := granted
  obtain ⟨grant, _, rfl⟩ := Option.map_eq_some_iff.mp created
  have straight : width * vecInitialCap % sizeMod = width * vecInitialCap := Nat.mod_eq_of_lt (by rw [Nat.mul_comm]; omega)
  have needed : (sizeofVec + width * vecInitialCap) % sizeMod = sizeofVec + width * vecInitialCap :=
    Nat.mod_eq_of_lt (by rwa [Nat.mul_comm width])
  refine ⟨rfl, rfl, rfl, rfl, ?_, positive, fits⟩
  simp only [straight, needed, Nat.add_sub_cancel_left]
  rw [memset_end (by rw [Grant.resized_length, Nat.zero_add]), List.take_zero, List.nil_append, Nat.mul_comm, ← laidOut_default]
  rfl

/-- The larger block has the elements in front and zeros behind them. -/
theorem RawVec.Shows.realloc (shows_ : raw.Shows vec) (valid : vec.Valid) (full : vec.len = vec.cap) {answer : Option Grant}
    (granted : Granted answer (vec.cap * 2) width) :
    ∃ grown larger, RawVec.vecRealloc answer raw raw.cap raw.len (raw.len * raw.dataSize % sizeMod) raw.dataSize = some grown ∧
      LexiDB.vecRealloc (answer.map Grant.address) vec = some larger ∧ grown.Shows larger ∧ larger.len = vec.len := by
  obtain ⟨given, fits⟩ := granted
  obtain ⟨grant, rfl⟩ := Option.isSome_iff_exists.mp given
  have size := valid.size
  have positive := shows_.positive
  have large : vec.cap * 2 ≤ vec.cap * 2 * width := Nat.le_mul_of_pos_right _ positive
  have doubled : vec.cap * 2 % sizeMod = vec.cap * 2 := Nat.mod_eq_of_lt (by omega)
  have straight : vec.cap * 2 * width % sizeMod = vec.cap * 2 * width := Nat.mod_eq_of_lt (by omega)
  have whole : (sizeofVec + vec.cap * 2 * width) % sizeMod = sizeofVec + vec.cap * 2 * width := Nat.mod_eq_of_lt fits
  have offset := shows_.offset (Nat.le_of_eq full)
  have half : vec.cap * 2 - vec.cap = vec.cap := by omega
  have tail : vec.cap * width % sizeMod = vec.cap * width := by rw [← full]; exact offset
  have used : raw.data.length = vec.cap * width := by rw [shows_.data, laidOut_length, size]
  have twice : vec.cap * 2 * width = vec.cap * width + vec.cap * width := by rw [Nat.mul_assoc, Nat.mul_comm 2, ← Nat.mul_assoc]; omega
  refine ⟨_, _, rfl, rfl, ⟨rfl, shows_.len, ?_, shows_.dataSize, ?_, positive, ?_⟩, rfl⟩
  · simp only [shows_.cap, doubled]
  · simp only [shows_.cap, shows_.len, shows_.dataSize, doubled, straight, whole, Nat.add_sub_cancel_left, full, half, tail]
    rw [memset_end (by rw [Grant.resized_length, twice]), laidOut_append, laidOut_default]
    congr 1
    rw [Grant.resized, List.take_of_length_le (show raw.data.length ≤ _ by omega), ← used, List.take_left, shows_.data, ← size,
      List.take_length]
  · simpa using fits

/-- Pushing the bytes of an element pushes the element. -/
theorem RawVec.Shows.push (shows_ : raw.Shows vec) (valid : vec.Valid) {answer : Option Grant}
    (granted : vec.len = vec.cap → Granted answer (vec.cap * 2) width) (data : Block width) :
    (RawVec.vecPush answer raw data.bytes).1 = (LexiDB.vecPush (answer.map Grant.address) vec data).1 ∧
      (RawVec.vecPush answer raw data.bytes).2.Shows (LexiDB.vecPush (answer.map Grant.address) vec data).2 := by
  have offset := shows_.offset valid.room
  -- the element is copied to a slot that is there, before or after growing
  have copied : ∀ {grown : RawVec} {larger : Vec (Block width)}, grown.Shows larger → larger.len = vec.len →
      larger.len < larger.slots.length →
      RawVec.Shows { grown with
        data := store grown.data (raw.len * raw.dataSize % sizeMod) (data.bytes.take grown.dataSize)
        len := (grown.len + 1) % sizeMod } { larger with slots := larger.slots.set larger.len data, len := larger.len + 1 } := by
    intro grown larger kept same free
    have fits := shows_.fits
    have within : vec.len ≤ vec.len * width := Nat.le_mul_of_pos_right _ shows_.positive
    have inside : vec.len * width ≤ vec.cap * width := Nat.mul_le_mul_right width valid.room
    refine ⟨kept.address, ?_, kept.cap, kept.dataSize, ?_, kept.positive, kept.fits⟩
    · simp only [kept.len, same]
      exact Nat.mod_eq_of_lt (by simp only [sizeofVec] at fits; omega)
    · simp only [shows_.len, shows_.dataSize, offset, kept.dataSize, kept.data]
      rw [List.take_of_length_le (Nat.le_of_eq data.length), ← same, laidOut_set _ _ free]
  by_cases full : vec.len = vec.cap
  · obtain ⟨grown, larger, one, two, kept, same⟩ := shows_.realloc valid full (granted full)
    have filled : raw.len = raw.cap := by rw [shows_.len, shows_.cap, full]
    have room : larger.len < larger.slots.length := by
      have minimal := valid.minimal
      have size := valid.size
      obtain ⟨address, _, rfl⟩ := Option.map_eq_some_iff.mp two
      simp only [List.length_append, List.length_take, List.length_replicate, vecInitialCap] at minimal ⊢
      omega
    simp only [RawVec.vecPush, LexiDB.vecPush, if_pos filled, if_pos full, one, two]
    exact ⟨trivial, copied kept same room⟩
  · have unfilled : raw.len ≠ raw.cap := by rwa [shows_.len, shows_.cap]
    simp only [RawVec.vecPush, LexiDB.vecPush, if_neg unfilled, if_neg full]
    exact ⟨trivial, copied shows_ rfl (by rw [valid.size]; exact Nat.lt_of_le_of_ne valid.room full)⟩

/-- Popping hands out the bytes of the element. -/
theorem RawVec.Shows.pop (shows_ : raw.Shows vec) (valid : vec.Valid) :
    (RawVec.vecPop raw).1 = (if (LexiDB.vecPop vec).1.isSome then 0 else -1) ∧
      (RawVec.vecPop raw).2.1 = (LexiDB.vecPop vec).1.map Block.bytes ∧ (RawVec.vecPop raw).2.2.Shows (LexiDB.vecPop vec).2 := by
  by_cases empty : vec.len = 0
  · simp only [RawVec.vecPop, LexiDB.vecPop, shows_.len, if_pos empty]
    exact ⟨rfl, rfl, shows_⟩
  · have room := valid.room
    simp only [RawVec.vecPop, LexiDB.vecPop, shows_.len, if_neg empty, shows_.dataSize]
    refine ⟨rfl, ?_, ⟨shows_.address, rfl, shows_.cap, rfl, shows_.data, shows_.positive, shows_.fits⟩⟩
    rw [shows_.load valid (by omega)]
    rfl

theorem laidOut_clear (blocks : List (Block width)) (inside : i < blocks.length) :
    memset (laidOut blocks) (i * width) 0 width = laidOut (blocks.set i default) := laidOut_set blocks default inside

/-- Moving the elements behind one down over it. -/
theorem laidOut_memmove (blocks : List (Block width)) (before : idx < last) (inside : last < blocks.length) :
    memmove (laidOut blocks) (idx * width) ((idx + 1) * width) (last * width - idx * width) =
      laidOut (blocks.take idx ++ (blocks.take (last + 1)).drop (idx + 1) ++ blocks.drop last) := by
  have uniform := uniform_blocks blocks
  have count : ((blocks.map Block.bytes).drop (idx + 1)).take (last - idx) = ((blocks.take (last + 1)).drop (idx + 1)).map Block.bytes := by
    rw [List.map_drop, List.map_take, List.drop_take, show last + 1 - (idx + 1) = last - idx by omega]
  have moved : (((blocks.take (last + 1)).drop (idx + 1)).map Block.bytes).length = last - idx := by
    simp only [List.length_map, List.length_drop, List.length_take]
    omega
  rw [memmove, ← Nat.sub_mul, laidOut, uniform.load_flatten (by rw [List.length_map]; omega), count,
    uniform.store_flatten (uniform_blocks _) (by rw [moved, List.length_map]; omega), moved, show idx + (last - idx) = last by omega]
  simp [laidOut]

/-- What `vec_remove_at` makes of the bytes, for the last element and for the others. -/
theorem laidOut_removed (blocks : List (Block width)) (before : idx ≤ last) (inside : last < blocks.length) :
    (if last = idx then memset (laidOut blocks) (idx * width) 0 width
      else memset (memmove (laidOut blocks) (idx * width) ((idx + 1) * width) (last * width - idx * width)) (last * width) 0 width) =
      laidOut (blocks.take idx ++ (blocks.take (last + 1)).drop (idx + 1) ++ default :: blocks.drop (last + 1)) := by
  have front : (blocks.take idx ++ (blocks.take (last + 1)).drop (idx + 1)).length = last := by
    simp only [List.length_append, List.length_take, List.length_drop]
    omega
  have cleared : (blocks.take idx ++ (blocks.take (last + 1)).drop (idx + 1) ++ blocks.drop last).set last default =
      blocks.take idx ++ (blocks.take (last + 1)).drop (idx + 1) ++ default :: blocks.drop (last + 1) := by
    rw [List.set_append_right _ _ (Nat.le_of_eq front), front, Nat.sub_self, List.drop_eq_getElem_cons inside, List.set_cons_zero]
  rw [← cleared]
  split
  · rename_i same
    rw [same] at inside ⊢
    rw [laidOut_clear _ inside, List.drop_eq_nil_of_le (List.length_take_le _ _), List.append_nil, List.take_append_drop]
  · rename_i other
    have length : last < (blocks.take idx ++ (blocks.take (last + 1)).drop (idx + 1) ++ blocks.drop last).length := by
      rw [List.length_append, front, List.length_drop]
      omega
    rw [laidOut_memmove blocks (Nat.lt_of_le_of_ne before (Ne.symm other)) inside, laidOut_clear _ length]

/-- The tail is moved down by one element and what is behind it is cleared. -/
theorem RawVec.Shows.removeAt (shows_ : raw.Shows vec) (valid : vec.Valid) (idx : Nat) (out : Bool) :
    (RawVec.vecRemoveAt raw idx out).1 = (LexiDB.vecRemoveAt vec idx).1 ∧
      (RawVec.vecRemoveAt raw idx out).2.1 = (if out then (LexiDB.vecGetAt vec idx).map Block.bytes else none) ∧
      (RawVec.vecRemoveAt raw idx out).2.2.Shows (LexiDB.vecRemoveAt vec idx).2 := by
  by_cases outside : idx ≥ vec.len
  · simp only [RawVec.vecRemoveAt, LexiDB.vecRemoveAt, LexiDB.vecGetAt, shows_.len, if_pos outside, Option.map_none, ite_self]
    exact ⟨trivial, trivial, shows_⟩
  · have room := valid.room
    have size := valid.size
    have copied : Lib.load raw.data (idx * width % sizeMod) width = (vec.slots.getD idx default).bytes :=
      shows_.load valid (by omega)
    have offset := shows_.offset (show idx ≤ vec.cap by omega)
    have behind := shows_.offset (show idx + 1 ≤ vec.cap by omega)
    have last := shows_.offset (show vec.len - 1 ≤ vec.cap by omega)
    have data := laidOut_removed vec.slots (show idx ≤ vec.len - 1 by omega) (by omega)
    rw [show vec.len - 1 + 1 = vec.len by omega] at data
    simp only [RawVec.vecRemoveAt, LexiDB.vecRemoveAt, LexiDB.vecGetAt, shows_.len, shows_.dataSize, if_neg outside, copied]
    split at data <;>
    · rename_i which
      simp only [which, ↓reduceIte]
      refine ⟨trivial, rfl, shows_.address, rfl, shows_.cap, rfl, ?_, shows_.positive, shows_.fits⟩
      simp only [shows_.data, offset, behind, last]
      exact data

/-- The comparison sees the bytes of the elements. -/
theorem RawVec.Shows.find (shows_ : raw.Shows vec) (valid : vec.Valid) (fn : List UInt8 → Int) (out : Bool) :
    RawVec.vecFind raw fn out =
      match LexiDB.vecFind vec (fun element => fn element.bytes = 0) with
      | none => (-1, none)
      | some (i, element) => (i, if out then some element.bytes else none) := by
  have room := valid.room
  have loaded : ∀ i, i < vec.len → Lib.load raw.data (i * width % sizeMod) width = (vec.slots.getD i default).bytes :=
    fun i inside => shows_.load valid (by omega)
  have same : ((List.range vec.len).find? fun i => decide (fn (Lib.load raw.data (i * width % sizeMod) width) = 0)) =
      (List.range vec.len).find? fun i => decide (fn (vec.slots.getD i default).bytes = 0) := by
    refine List.find?_congr fun i member => ?_
    rw [loaded i (List.mem_range.mp member)]
  simp only [RawVec.vecFind, LexiDB.vecFind, shows_.len, shows_.dataSize, same]
  cases found : (List.range vec.len).find? fun i => decide (fn (vec.slots.getD i default).bytes = 0) with
  | none => rfl
  | some i => simp only [Option.map_some, loaded i (List.mem_range.mp (List.mem_of_find?_eq_some found))]

end Bytes

section Calls

inductive VecCall (width : Nat) where
  | push (data : Block width)
  | pop
  | getAt (idx : Nat)
  | removeAt (idx : Nat) (out : Bool)
  | find (fn : List UInt8 → Int) (out : Bool)

/-- What a call returns: a number and what it copies to `out`, or a pointer to an
element, which stands for the bytes that it points to. -/
inductive VecAnswer where
  | code (res : Int) (copied : Option (List UInt8))
  | pointer (element : Option (List UInt8))
  deriving DecidableEq

/-- -1 or NULL. -/
def VecAnswer.Fails (answer : VecAnswer) : Prop := (∃ copied, answer = .code (-1) copied) ∨ answer = .pointer none

variable {width : Nat}

/-- A call, with what the allocator answers should the vector grow. -/
def RawVec.step (vec : RawVec) (call : Option Grant × VecCall width) : VecAnswer × RawVec :=
  match call.2 with
  | .push data => (.code (vecPush call.1 vec data.bytes).1 none, (vecPush call.1 vec data.bytes).2)
  | .pop => (.code (vecPop vec).1 (vecPop vec).2.1, (vecPop vec).2.2)
  | .getAt idx => (.pointer ((vecGetAt vec idx).map fun start => load vec.data start vec.dataSize), vec)
  | .removeAt idx out => (.code (vecRemoveAt vec idx out).1 (vecRemoveAt vec idx out).2.1, (vecRemoveAt vec idx out).2.2)
  | .find fn out => (.code (vecFind vec fn out).1 (vecFind vec fn out).2, vec)

/-- The same call on a list of elements. -/
def listStep (elems : List (Block width)) (call : Option Grant × VecCall width) : VecAnswer × List (Block width) :=
  match call.2 with
  | .push data => (.code 0 none, elems ++ [data])
  | .pop =>
    match elems.getLast? with
    | none => (.code (-1) none, elems)
    | some last => (.code 0 (some last.bytes), elems.dropLast)
  | .getAt idx => (.pointer (elems[idx]?.map Block.bytes), elems)
  | .removeAt idx out =>
    match elems[idx]? with
    | none => (.code (-1) none, elems)
    | some element => (.code 0 (if out then some element.bytes else none), elems.eraseIdx idx)
  | .find fn out =>
    match elems.findIdx? fun element => fn element.bytes = 0 with
    | none => (.code (-1) none, elems)
    | some i => (.code i (if out then elems[i]?.map Block.bytes else none), elems)

/-- A push that finds the vector full is granted the block it needs. -/
def RawVec.Allocates (vec : RawVec) (call : Option Grant × VecCall width) : Prop :=
  ∀ data, call.2 = .push data → vec.len = vec.cap → Granted call.1 (vec.cap * 2) vec.dataSize

/-- The elements lie one behind the other from the start of a block that has room for
as many as the capacity says. -/
structure RawVec.Holds (vec : RawVec) (elems : List (Block width)) : Prop where
  length : vec.len = elems.length
  room : vec.len ≤ vec.cap
  dataSize : vec.dataSize = width
  size : vec.data.length = vec.cap * width
  contents : load vec.data 0 (vec.len * width) = laidOut elems

/-- A vector of bytes that shows a valid vector of these elements. -/
def RawVec.Stands (raw : RawVec) (elems : List (Block width)) : Prop :=
  ∃ vec : Vec (Block width), raw.Shows vec ∧ vec.Valid ∧ vec.elems = elems

variable {raw : RawVec} {elems : List (Block width)}

theorem RawVec.Stands.holds (stands : raw.Stands elems) : raw.Holds elems := by
  obtain ⟨vec, shown, valid, rfl⟩ := stands
  have room := valid.room
  have size := valid.size
  refine ⟨by rw [shown.len, valid.length], by rw [shown.len, shown.cap]; exact room, shown.dataSize, ?_, ?_⟩
  · rw [shown.data, laidOut_length, shown.cap, size]
  · have fits : 0 + vec.len ≤ (vec.slots.map Block.bytes).length := by rw [List.length_map]; omega
    have front := (uniform_blocks vec.slots).load_flatten fits
    rw [Nat.zero_mul] at front
    rw [shown.data, shown.len, laidOut, front, List.drop_zero, ← List.map_take]
    rfl

/-- What is found in the slots is found in the list. -/
private theorem vecFind_findIdx {vec : Vec (Block width)} (valid : vec.Valid) (equal : Block width → Bool) :
    vecFind vec equal = (vec.elems.findIdx? equal).bind fun i => vec.elems[i]?.map fun element => (i, element) := by
  cases found : vecFind vec equal with
  | none => rw [List.findIdx?_eq_none_iff.mpr (vecFind_eq_none valid found), Option.bind_none]
  | some result =>
    obtain ⟨i, element⟩ := result
    obtain ⟨here, hit, first⟩ := vecFind_eq_some valid found
    obtain ⟨inside, same⟩ := List.getElem?_eq_some_iff.mp here
    have index : vec.elems.findIdx? equal = some i := by
      refine List.findIdx?_eq_some_iff_getElem.mpr ⟨inside, by rw [same]; exact hit, fun j before => ?_⟩
      rw [first j before _ (List.getElem?_eq_getElem _)]
      decide
    rw [index, Option.bind_some, here, Option.map_some]

section Steps

variable {vec : Vec (Block width)}

private abbrev Follows (raw : RawVec) (elems : List (Block width)) (call : Option Grant × VecCall width) : Prop :=
  Alike (fun elems raw => RawVec.Stands raw elems) listStep RawVec.step elems raw call

private theorem Vec.Valid.outside (valid : vec.Valid) : vec.elems[idx]? = none ↔ idx ≥ vec.len := by
  rw [List.getElem?_eq_none_iff, valid.length]

private theorem RawVec.Shows.follows_push (shown : raw.Shows vec) (valid : vec.Valid) (data : Block width)
    (allocates : raw.Allocates (answer, VecCall.push data)) : Follows raw vec.elems (answer, .push data) := by
  have granted : vec.len = vec.cap → Granted answer (vec.cap * 2) width := by
    intro full
    have given := allocates data rfl (by rw [shown.len, shown.cap, full])
    rwa [shown.cap, shown.dataSize] at given
  have given : vec.len = vec.cap → (answer.map Grant.address).isSome := by
    rw [Option.isSome_map]
    exact fun full => (granted full).1
  obtain ⟨same, kept⟩ := shown.push valid granted data
  obtain ⟨after, pushed, next, content⟩ := vecPush_spec valid given data
  rw [pushed] at same kept
  exact ⟨congrArg (VecAnswer.code · none) same.symm, after, kept, next, content⟩

private theorem RawVec.Shows.follows_pop (shown : raw.Shows vec) (valid : vec.Valid) (answer : Option Grant) :
    Follows raw vec.elems (answer, .pop) := by
  obtain ⟨res, copied, kept⟩ := shown.pop valid
  obtain ⟨last, next, content⟩ := vecPop_spec valid
  rw [last] at res copied
  cases final : vec.elems.getLast? with
  | none =>
    have empty := List.getLast?_eq_none_iff.mp final
    refine ⟨by simp [listStep, RawVec.step, final, res, copied], _, kept, next, ?_⟩
    rw [content]
    simp [listStep, empty]
  | some element =>
    refine ⟨by simp [listStep, RawVec.step, final, res, copied], _, kept, next, ?_⟩
    rw [content]
    simp [listStep, final]

private theorem RawVec.Shows.follows_getAt (shown : raw.Shows vec) (valid : vec.Valid) (answer : Option Grant) (idx : Nat) :
    Follows raw vec.elems (answer, .getAt idx) := by
  refine ⟨?_, vec, shown, valid, rfl⟩
  by_cases inside : idx < vec.len
  · have room := valid.room
    simp only [listStep, RawVec.step, RawVec.vecGetAt, shown.len, if_neg (show ¬ idx ≥ vec.len by omega), Option.map_some, shown.dataSize,
      shown.load valid (show idx < vec.cap by omega), valid.getElem? inside]
  · have beyond : idx ≥ vec.len := Nat.not_lt.mp inside
    simp only [listStep, RawVec.step, RawVec.vecGetAt, shown.len, if_pos beyond, Option.map_none, valid.outside.mpr beyond]

private theorem RawVec.Shows.follows_removeAt (shown : raw.Shows vec) (valid : vec.Valid) (answer : Option Grant) (idx : Nat) (out : Bool) :
    Follows raw vec.elems (answer, .removeAt idx out) := by
  obtain ⟨res, copied, kept⟩ := shown.removeAt valid idx out
  by_cases inside : idx < vec.len
  · obtain ⟨after, removed, next, content⟩ := vecRemoveAt_spec valid inside
    have element := valid.getElem? inside
    simp only [LexiDB.vecGetAt, if_neg (show ¬ idx ≥ vec.len by omega), Option.map_some] at copied
    rw [removed] at res kept
    refine ⟨by simp only [listStep, RawVec.step, element, res, copied], after, kept, next, ?_⟩
    rw [content]
    simp only [listStep, element]
  · have beyond : idx ≥ vec.len := Nat.not_lt.mp inside
    have missing := valid.outside.mpr beyond
    simp only [LexiDB.vecGetAt, LexiDB.vecRemoveAt, if_pos beyond, Option.map_none, ite_self] at res copied kept
    refine ⟨by simp only [listStep, RawVec.step, missing, res, copied], vec, kept, valid, ?_⟩
    simp only [listStep, missing]

private theorem RawVec.Shows.follows_find (shown : raw.Shows vec) (valid : vec.Valid) (answer : Option Grant) (fn : List UInt8 → Int)
    (out : Bool) : Follows raw vec.elems (answer, .find fn out) := by
  refine ⟨?_, vec, shown, valid, ?_⟩
  · have found := shown.find valid fn out
    rw [vecFind_findIdx valid] at found
    cases index : vec.elems.findIdx? fun element => decide (fn element.bytes = 0) with
    | none =>
      rw [index] at found
      simp only [listStep, RawVec.step, index, found, Option.bind_none]
    | some i =>
      obtain ⟨inside, _⟩ := List.findIdx?_eq_some_iff_getElem.mp index
      rw [index, Option.bind_some, List.getElem?_eq_getElem inside, Option.map_some] at found
      simp only [listStep, RawVec.step, index, found, List.getElem?_eq_getElem inside, Option.map_some]
  · simp only [listStep]
    split <;> rfl

/-- One call: the answer of the list, and the list it leaves. -/
theorem RawVec.Stands.step (stands : raw.Stands elems) (call : Option Grant × VecCall width) (allocates : raw.Allocates call) :
    Alike (fun elems raw => RawVec.Stands raw elems) listStep RawVec.step elems raw call := by
  obtain ⟨vec, shown, valid, rfl⟩ := stands
  obtain ⟨answer, call⟩ := call
  cases call with
  | push data => exact shown.follows_push valid data allocates
  | pop => exact shown.follows_pop valid answer
  | getAt idx => exact shown.follows_getAt valid answer idx
  | removeAt idx out => exact shown.follows_removeAt valid answer idx out
  | find fn out => exact shown.follows_find valid answer fn out

end Steps

/-- A call that answers -1 or NULL leaves every field and every byte as it was. -/
theorem RawVec.step_fails (vec : RawVec) (call : Option Grant × VecCall width) (fails : (vec.step call).1.Fails) : (vec.step call).2 = vec := by
  obtain ⟨answer, call⟩ := call
  have code : ∀ {copied}, (VecAnswer.code 0 copied).Fails → False := by
    rintro copied (⟨_, same⟩ | same) <;> cases same
  cases call with
  | push data =>
    simp only [RawVec.step, RawVec.vecPush] at fails ⊢
    split at fails
    · rfl
    · exact (code fails).elim
  | pop =>
    simp only [RawVec.step, RawVec.vecPop] at fails ⊢
    split at fails
    · rename_i empty
      simp only [if_pos empty]
    · exact (code fails).elim
  | getAt idx => rfl
  | removeAt idx out =>
    simp only [RawVec.step, RawVec.vecRemoveAt] at fails ⊢
    split at fails
    · rename_i outside
      simp only [if_pos outside]
    · split at fails
      · exact (code fails).elim
      · exact (code fails).elim
  | find fn out => rfl

/-- Over every sequence of calls the vector answers as the list, its bytes are those of
the list's elements in order, and a failing call changes nothing. -/
theorem vec_refines_list (positive : 1 ≤ width) {malloc : Option Grant} (granted : Granted malloc vecInitialCap width)
    (created : RawVec.vecNew malloc width = some raw) (calls : List (Option Grant × VecCall width))
    (allocates : Along RawVec.Allocates RawVec.step raw calls) :
    let run := answers RawVec.step raw calls
    let spec := answers listStep ([] : List (Block width)) calls
    run.1 = spec.1 ∧ run.2.Holds spec.2 ∧
      ∀ call : Option Grant × VecCall width, (run.2.step call).1.Fails → (run.2.step call).2 = run.2 := by
  have start : raw.Stands ([] : List (Block width)) := ⟨_, RawVec.vecNew_shows positive granted created, vecNew_valid _, rfl⟩
  obtain ⟨same, stands⟩ := answers_alike_along (fun _ _ call stands given => RawVec.Stands.step stands call given) allocates start
  exact ⟨same.symm, stands.holds, fun call => RawVec.step_fails _ call⟩

private def sampleGrant : Grant := ⟨0x55d0a2a0, fun _ => 0xcc⟩

/-- Elements of two bytes: one more than there is room for, then the middle one goes. -/
private def sampleVecCalls : List (Option Grant × VecCall 2) :=
  [(none, .push ⟨cstr "ab", rfl⟩), (none, .push ⟨cstr "cd", rfl⟩), (some sampleGrant, .push ⟨cstr "ef", rfl⟩),
    (none, .removeAt 1 true), (none, .find (fun bytes => memcmp (cstr "ef") bytes) false), (none, .getAt 2)]

private def sampleVec : RawVec := ⟨0x55d0a2a0, 0, 2, 2, [0, 0, 0, 0]⟩

private theorem sampleVec_new : RawVec.vecNew (some sampleGrant) 2 = some sampleVec := rfl

theorem vec_refines_list_sample :
    (answers RawVec.step sampleVec sampleVecCalls).1 = (answers listStep [] sampleVecCalls).1 ∧
      (answers RawVec.step sampleVec sampleVecCalls).2.data = cstr "abef" ++ [0, 0, 0, 0] := by
  refine ⟨(vec_refines_list (by decide) ⟨rfl, by decide⟩ sampleVec_new sampleVecCalls ?_).1, by decide⟩
  refine ⟨?_, ?_, fun _ _ _ => ⟨rfl, by decide⟩, ?_, ?_, ?_, trivial⟩ <;>
  · intro data _ full
    exact absurd full (by decide)

end Calls

end LexiDB
