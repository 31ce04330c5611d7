import Mathlib.Data.List.Basic
import Mathlib.Data.List.Induction
import Mathlib.Data.Nat.Digits.Defs
import LexiDB.Lib.Blocks
import LexiDB.Lib.Bytes

/-! Texts that are taken in block by block: the blocks of a text, a buffer that
collects them byte by byte, the padding that ends a text with its length, and
why two texts of one digest collide in the function that takes a block. -/

namespace LexiDB.Lib

universe u v

variable {α : Type u} {σ : Type v} {width : Nat}

section Blocks

/-- The whole blocks a text begins with. -/
def blocksOf (width : Nat) (l : List α) : List (List α) :=
  (List.range (l.length / width)).map fun i => load l (i * width) width

/-- What is left behind them. -/
def leftover (width : Nat) (l : List α) : List α := l.drop (l.length / width * width)

theorem blocksOf_uniform (width : Nat) (l : List α) : Uniform width (blocksOf width l) := by
  intro block member
  obtain ⟨i, inside, rfl⟩ := List.mem_map.mp member
  have room : (i + 1) * width ≤ l.length / width * width := Nat.mul_le_mul_right _ (List.mem_range.mp inside)
  have whole := Nat.div_mul_le_self l.length width
  rw [Nat.add_mul, Nat.one_mul] at room
  rw [load, List.length_take, List.length_drop]
  omega

variable {blocks : List (List α)} {rest : List α}

theorem Uniform.length_div (uniform : Uniform width blocks) (short : rest.length < width) :
    (blocks.flatten ++ rest).length / width = blocks.length := by
  rw [List.length_append, uniform.length_flatten, Nat.add_comm, Nat.add_mul_div_right _ _ (by omega),
    Nat.div_eq_of_lt short, Nat.zero_add]

theorem Uniform.blocksOf_eq (uniform : Uniform width blocks) (short : rest.length < width) :
    blocksOf width (blocks.flatten ++ rest) = blocks := by
  apply List.ext_getElem
  · simp only [blocksOf, List.length_map, List.length_range, uniform.length_div short]
  · intro i inside here
    have room : (i + 1) * width ≤ blocks.length * width := Nat.mul_le_mul_right _ here
    rw [Nat.add_mul, Nat.one_mul] at room
    have front : load (blocks.flatten ++ rest) (i * width) width = load blocks.flatten (i * width) width := by
      have size := uniform.length_flatten
      rw [load, load, List.drop_append_of_le_length (by omega), List.take_append_of_le_length]
      rw [List.length_drop]
      omega
    simp only [blocksOf, List.getElem_map, List.getElem_range]
    rw [front, uniform.load_block here]

theorem Uniform.leftover_eq (uniform : Uniform width blocks) (short : rest.length < width) :
    leftover width (blocks.flatten ++ rest) = rest := by
  rw [leftover, uniform.length_div short, ← uniform.length_flatten, List.drop_left]

theorem leftover_length (positive : 0 < width) (l : List α) : (leftover width l).length < width := by
  have parts := Nat.div_add_mod l.length width
  have small := Nat.mod_lt l.length positive
  rw [leftover, List.length_drop, Nat.mul_comm]
  omega

theorem blocksOf_flatten (width : Nat) (l : List α) : (blocksOf width l).flatten ++ leftover width l = l := by
  have front : ∀ count, count ≤ l.length / width →
      ((List.range count).map fun i => load l (i * width) width).flatten = l.take (count * width) := by
    intro count
    induction count with
    | zero => simp
    | succ count ih =>
      intro inside
      rw [List.range_succ, List.map_append, List.flatten_append, ih (by omega), List.map_singleton,
        List.flatten_singleton, load, Nat.add_mul, Nat.one_mul, List.take_add]
  rw [blocksOf, front _ (Nat.le_refl _), leftover, List.take_append_drop]

end Blocks

section Absorbing

/-- A state, and the front of a block that is not complete yet. -/
structure Absorber (σ : Type v) (α : Type u) where
  state : σ
  pending : List α

variable (compress : σ → List α → σ)

/-- One more byte: a block it completes is taken in. -/
def Absorber.push (width : Nat) (a : Absorber σ α) (byte : α) : Absorber σ α :=
  if a.pending.length + 1 = width then ⟨compress a.state (a.pending ++ [byte]), []⟩
  else ⟨a.state, a.pending ++ [byte]⟩

/-- Taking in a text byte by byte is taking in its blocks. -/
theorem Absorber.foldl_push (l : List α) (a : Absorber σ α) (short : a.pending.length < width) :
    l.foldl (Absorber.push compress width) a =
      ⟨(blocksOf width (a.pending ++ l)).foldl compress a.state, leftover width (a.pending ++ l)⟩ := by
  have none_ : Uniform width ([] : List (List α)) := fun _ member => absurd member (by simp)
  induction l generalizing a with
  | nil =>
    rw [List.append_nil]
    have blocks := none_.blocksOf_eq short
    have rest := none_.leftover_eq short
    rw [List.flatten_nil, List.nil_append] at blocks rest
    rw [blocks, rest]
    rfl
  | cons byte l ih =>
    rw [List.foldl_cons, Absorber.push]
    split
    · rename_i full
      rw [ih ⟨_, []⟩ (by simp only [List.length_nil]; omega), List.nil_append]
      -- the completed block stands in front of those of the rest
      have whole := blocksOf_flatten width l
      have uniform : Uniform width ((a.pending ++ [byte]) :: blocksOf width l) := by
        intro block member
        rcases List.mem_cons.mp member with same | later
        · rw [same, List.length_append, List.length_singleton, full]
        · exact blocksOf_uniform width l block later
      have small := leftover_length (by omega : 0 < width) l
      have text : a.pending ++ byte :: l =
          ((a.pending ++ [byte]) :: blocksOf width l).flatten ++ leftover width l := by
        rw [List.flatten_cons, List.append_assoc, whole, List.append_assoc, List.singleton_append]
      rw [text, uniform.blocksOf_eq small, uniform.leftover_eq small, List.foldl_cons]
    · rename_i more
      have longer : (a.pending ++ [byte]).length < width := by
        rw [List.length_append, List.length_singleton]
        omega
      rw [ih ⟨a.state, a.pending ++ [byte]⟩ longer, List.append_assoc, List.singleton_append]

end Absorbing

section Padding

/-- The low bytes of a number, the highest of them first. -/
def beBytes (count value : Nat) : List UInt8 := (leBytes count value).reverse

@[simp] theorem beBytes_length (count value : Nat) : (beBytes count value).length = count := by
  simp [beBytes]

/-- How many zeros a text of this length needs to fill its last block. -/
def padZeros (width lengthBytes length : Nat) : Nat :=
  (width - (length + 1 + lengthBytes) % width) % width

/-- A text with the marker behind it, zeros, and its length in bits, to whole blocks. -/
def strengthened (width lengthBytes : Nat) (l : List UInt8) : List UInt8 :=
  l ++ 0x80 :: (List.replicate (padZeros width lengthBytes l.length) 0 ++ beBytes lengthBytes (8 * l.length))

theorem strengthened_length (width lengthBytes : Nat) (l : List UInt8) :
    (strengthened width lengthBytes l).length = l.length + 1 + padZeros width lengthBytes l.length + lengthBytes := by
  simp only [strengthened, List.length_append, List.length_cons, List.length_replicate, beBytes_length]
  omega

theorem padZeros_dvd (positive : 0 < width) (lengthBytes length : Nat) :
    width ∣ length + 1 + padZeros width lengthBytes length + lengthBytes := by
  have small := Nat.mod_lt (length + 1 + lengthBytes) positive
  have parts := Nat.div_add_mod (length + 1 + lengthBytes) width
  apply Nat.dvd_of_mod_eq_zero
  unfold padZeros
  by_cases full : (length + 1 + lengthBytes) % width = 0
  · rw [full, Nat.sub_zero, Nat.mod_self, Nat.add_zero, full]
  · have zeros : (width - (length + 1 + lengthBytes) % width) % width = width - (length + 1 + lengthBytes) % width :=
      Nat.mod_eq_of_lt (by omega)
    rw [zeros]
    have sum : length + 1 + (width - (length + 1 + lengthBytes) % width) + lengthBytes =
        width * ((length + 1 + lengthBytes) / width + 1) := by
      rw [Nat.mul_add, Nat.mul_one]
      omega
    rw [sum, Nat.mul_mod_right]

theorem leBytes_injective : ∀ count {value other : Nat}, value < 256 ^ count → other < 256 ^ count →
    leBytes count value = leBytes count other → value = other := by
  intro count
  induction count with
  | zero =>
    intro value other small short _
    simp only [Nat.pow_zero] at small short
    omega
  | succ count ih =>
    intro value other small short same
    rw [leBytes, leBytes, List.range_succ_eq_map, List.map_cons, List.map_cons, List.cons.injEq] at same
    obtain ⟨first, later⟩ := same
    have low : value % 256 = other % 256 := by
      simpa [← UInt8.toNat_inj] using first
    have high : value / 256 = other / 256 := by
      refine ih (by rw [Nat.pow_succ] at small; omega) (by rw [Nat.pow_succ] at short; omega) ?_
      simpa [leBytes, List.map_map, Function.comp_def, Nat.pow_succ, Nat.mul_comm, ← Nat.div_div_eq_div_mul] using later
    omega

/-- Only the low bytes of the number are looked at. -/
theorem beBytes_mod (count value : Nat) : beBytes count (value % 256 ^ count) = beBytes count value := by
  simp only [beBytes, leBytes, List.reverse_inj]
  apply List.map_congr_left
  intro i member
  have inside := List.mem_range.mp member
  apply UInt8.toNat_inj.mp
  have high : 256 ^ i * 256 ∣ 256 ^ count := by
    rw [← Nat.pow_succ]
    exact Nat.pow_dvd_pow 256 inside
  rw [UInt8.toNat_ofNat', UInt8.toNat_ofNat', ← Nat.mod_mul_right_div_self, ← Nat.mod_mul_right_div_self, Nat.mod_mod_of_dvd _ high]

theorem beBytes_injective {count value other : Nat} (small : value < 256 ^ count) (short : other < 256 ^ count)
    (same : beBytes count value = beBytes count other) : value = other :=
  leBytes_injective count small short (List.reverse_injective same)

/-- No padded text ends another one. -/
theorem strengthened_suffix {a b : List UInt8} {lengthBytes : Nat} (small : 8 * a.length < 256 ^ lengthBytes)
    (short : 8 * b.length < 256 ^ lengthBytes)
    (suffix : strengthened width lengthBytes a <:+ strengthened width lengthBytes b) : a = b := by
  have ends : ∀ l : List UInt8, beBytes lengthBytes (8 * l.length) <:+ strengthened width lengthBytes l := by
    intro l
    refine ⟨l ++ 0x80 :: List.replicate (padZeros width lengthBytes l.length) 0, ?_⟩
    rw [strengthened, List.append_assoc, List.cons_append]
  have lengths : a.length = b.length := by
    have tails := List.suffix_of_suffix_length_le ((ends a).trans suffix) (ends b) (by simp)
    have equal := beBytes_injective small short (tails.eq_of_length (by simp))
    omega
  have whole : strengthened width lengthBytes a = strengthened width lengthBytes b := by
    refine suffix.eq_of_length ?_
    rw [strengthened_length, strengthened_length, lengths]
  exact (List.append_inj whole lengths).1

end Padding

section Collisions

variable {β : Type u} (compress : σ → β → σ)

/-- Two different inputs of one output. -/
def Collide (one two : σ × β) : Prop := one ≠ two ∧ compress one.1 one.2 = compress two.1 two.2

/-- The inputs met while these blocks are taken in. -/
def inputs : σ → List β → List (σ × β)
  | _, [] => []
  | s, block :: blocks => (s, block) :: inputs (compress s block) blocks

theorem inputs_concat (s : σ) (blocks : List β) (block : β) :
    inputs compress s (blocks ++ [block]) = inputs compress s blocks ++ [(blocks.foldl compress s, block)] := by
  induction blocks generalizing s with
  | nil => rfl
  | cons first blocks ih =>
    rw [List.cons_append, inputs, ih, inputs, List.cons_append, List.foldl_cons]

/-- Two lists of blocks that end alike, none of which ends the other, meet a collision. -/
theorem exists_collide (s : σ) : ∀ a b : List β, ¬a <:+ b → ¬b <:+ a → a.foldl compress s = b.foldl compress s →
    ∃ one ∈ inputs compress s a, ∃ two ∈ inputs compress s b, Collide compress one two := by
  intro a
  induction a using List.reverseRecOn with
  | nil => exact fun b apart => absurd (List.nil_suffix) apart
  | append_singleton a x ih =>
    intro b apart apart' same
    rcases List.eq_nil_or_concat' b with rfl | ⟨b, y, rfl⟩
    · exact absurd List.nil_suffix apart'
    · simp only [List.foldl_append, List.foldl_cons, List.foldl_nil] at same
      simp only [inputs_concat]
      by_cases equal : (a.foldl compress s, x) = (b.foldl compress s, y)
      · -- the last inputs agree, so the collision lies in front of them
        obtain ⟨states, rfl⟩ := Prod.mk.inj equal
        have longer : ∀ {c d : List β}, c <:+ d → c ++ [x] <:+ d ++ [x] := by
          rintro c d ⟨front, rfl⟩
          exact ⟨front, by rw [List.append_assoc]⟩
        obtain ⟨one, first, two, second, collide⟩ :=
          ih b (fun suffix => apart (longer suffix)) (fun suffix => apart' (longer suffix)) states
        exact ⟨one, List.mem_append_left _ first, two, List.mem_append_left _ second, collide⟩
      · exact ⟨_, List.mem_append_right _ (List.mem_singleton_self _), _,
          List.mem_append_right _ (List.mem_singleton_self _), equal, same⟩

end Collisions

/-- Two padded texts whose blocks leave one state meet a collision. -/
theorem strengthened_collide (positive : 0 < width) (compress : σ → List UInt8 → σ) (s : σ) {a b : List UInt8} {lengthBytes : Nat}
    (small : 8 * a.length < 256 ^ lengthBytes) (short : 8 * b.length < 256 ^ lengthBytes) (different : a ≠ b)
    (same : (blocksOf width (strengthened width lengthBytes a)).foldl compress s =
      (blocksOf width (strengthened width lengthBytes b)).foldl compress s) :
    ∃ one ∈ inputs compress s (blocksOf width (strengthened width lengthBytes a)),
      ∃ two ∈ inputs compress s (blocksOf width (strengthened width lengthBytes b)), Collide compress one two := by
  have whole : ∀ l : List UInt8, (blocksOf width (strengthened width lengthBytes l)).flatten = strengthened width lengthBytes l := by
    intro l
    have parts := blocksOf_flatten width (strengthened width lengthBytes l)
    have none_ : leftover width (strengthened width lengthBytes l) = [] := by
      have fills := padZeros_dvd positive lengthBytes l.length
      rw [← strengthened_length] at fills
      rw [leftover, Nat.div_mul_cancel fills, List.drop_length]
    rwa [none_, List.append_nil] at parts
  have flat : ∀ {c d : List (List UInt8)}, c <:+ d → c.flatten <:+ d.flatten := by
    rintro c d ⟨front, rfl⟩
    exact ⟨front.flatten, by rw [List.flatten_append]⟩
  refine exists_collide compress s _ _ (fun suffix => ?_) (fun suffix => ?_) same
  · have texts := flat suffix
    rw [whole, whole] at texts
    exact different (strengthened_suffix small short texts)
  · have texts := flat suffix
    rw [whole, whole] at texts
    exact different (strengthened_suffix short small texts).symm

end LexiDB.Lib
