/-! Blocks of one length laid out one behind the other in a buffer. -/

namespace LexiDB.Lib

variable {α : Type u}

/-- The part of the buffer that starts here. -/
def load (buf : List α) (start count : Nat) : List α := (buf.drop start).take count

/-- The buffer with this part written over. -/
def store (buf : List α) (start : Nat) (part : List α) : List α := buf.take start ++ part ++ buf.drop (start + part.length)

theorem take_store {buf part : List α} (fits : start + part.length ≤ buf.length) :
    (store buf start part).take (start + part.length) = buf.take start ++ part :=
  List.take_left' (by rw [List.length_append, List.length_take_of_le (by omega)])

theorem drop_store {buf part : List α} (fits : start + part.length ≤ buf.length) :
    (store buf start part).drop (start + part.length) = buf.drop (start + part.length) :=
  List.drop_left' (by rw [List.length_append, List.length_take_of_le (by omega)])

/-- Every block has this length. -/
def Uniform (width : Nat) (blocks : List (List α)) : Prop := ∀ block ∈ blocks, block.length = width

variable {width : Nat} {blocks : List (List α)}

theorem Uniform.take (uniform : Uniform width blocks) (count : Nat) : Uniform width (blocks.take count) :=
  fun block member => uniform block (List.mem_of_mem_take member)

theorem Uniform.drop (uniform : Uniform width blocks) (count : Nat) : Uniform width (blocks.drop count) :=
  fun block member => uniform block (List.mem_of_mem_drop member)

theorem Uniform.length_flatten (uniform : Uniform width blocks) : blocks.flatten.length = blocks.length * width := by
  rw [List.length_flatten, List.map_congr_left uniform, List.map_const', List.sum_replicate_nat]

/-- The first blocks, which end at a multiple of the width, and the others. -/
private theorem Uniform.split (uniform : Uniform width blocks) (inside : count ≤ blocks.length) :
    blocks.flatten = (blocks.take count).flatten ++ (blocks.drop count).flatten ∧ (blocks.take count).flatten.length = count * width := by
  constructor
  · rw [← List.flatten_append, List.take_append_drop]
  · rw [(uniform.take count).length_flatten, List.length_take, Nat.min_eq_left inside]

theorem Uniform.take_flatten (uniform : Uniform width blocks) (inside : count ≤ blocks.length) :
    blocks.flatten.take (count * width) = (blocks.take count).flatten := by
  obtain ⟨whole, front⟩ := uniform.split inside
  rw [whole, ← front, List.take_left]

theorem Uniform.drop_flatten (uniform : Uniform width blocks) (inside : count ≤ blocks.length) :
    blocks.flatten.drop (count * width) = (blocks.drop count).flatten := by
  obtain ⟨whole, front⟩ := uniform.split inside
  rw [whole, ← front, List.drop_left]

/-- Loading at a multiple of the width loads whole blocks. -/
theorem Uniform.load_flatten (uniform : Uniform width blocks) (inside : start + count ≤ blocks.length) :
    load blocks.flatten (start * width) (count * width) = ((blocks.drop start).take count).flatten := by
  rw [load, uniform.drop_flatten (by omega), (uniform.drop start).take_flatten (by rw [List.length_drop]; omega)]

theorem Uniform.load_block (uniform : Uniform width blocks) {index : Nat} (inside : index < blocks.length) :
    load blocks.flatten (index * width) width = blocks[index] := by
  have fits : index + 1 ≤ blocks.length := inside
  have one := uniform.load_flatten fits
  rw [Nat.one_mul] at one
  rw [one, List.drop_eq_getElem_cons inside, List.take_succ_cons, List.take_zero, List.flatten_singleton]

/-- Storing whole blocks at a multiple of the width replaces as many. -/
theorem Uniform.store_flatten (uniform : Uniform width blocks) {part : List (List α)} (same : Uniform width part)
    (inside : start + part.length ≤ blocks.length) :
    store blocks.flatten (start * width) part.flatten = (blocks.take start ++ part ++ blocks.drop (start + part.length)).flatten := by
  rw [store, uniform.take_flatten (by omega), same.length_flatten, ← Nat.add_mul, uniform.drop_flatten inside]
  simp

theorem Uniform.store_block (uniform : Uniform width blocks) {block : List α} (length : block.length = width) {index : Nat}
    (inside : index < blocks.length) : store blocks.flatten (index * width) block = (blocks.set index block).flatten := by
  have same : Uniform width [block] := by simpa [Uniform] using length
  have fits : index + [block].length ≤ blocks.length := inside
  have one := uniform.store_flatten same fits
  rw [List.flatten_singleton] at one
  rw [one, List.set_eq_take_append_cons_drop, if_pos inside]
  simp

end LexiDB.Lib
