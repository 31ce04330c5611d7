import Mathlib.Data.List.Basic

/-! A growing buffer whose front part has been filled. -/

namespace LexiDB.Lib

variable {α : Type} {buf content : List α}

/-- A buffer of `cap` places, the first `pos` of which hold `content`. -/
structure Holds (buf : List α) (pos cap : Nat) (content : List α) : Prop where
  size : buf.length = cap
  room : pos ≤ cap
  positive : 0 < cap
  front : buf.take pos = content

theorem Holds.length (holds : Holds buf pos cap content) : content.length = pos := by
  have size := holds.size
  have room := holds.room
  rw [← holds.front, List.length_take]
  omega

/-- A larger buffer keeps what was filled. -/
theorem Holds.grow (holds : Holds buf pos cap content) (larger : cap ≤ newCap) (fill : α) :
    Holds (buf.take pos ++ List.replicate (newCap - pos) fill) pos newCap content := by
  have length := holds.length
  have room := holds.room
  have positive := holds.positive
  rw [holds.front]
  refine ⟨?_, by omega, by omega, List.take_left' length⟩
  simp only [List.length_append, List.length_replicate]
  omega

/-- What fits is stored behind what was there. -/
theorem Holds.store (holds : Holds buf pos cap content) {part : List α} (fits : pos + part.length ≤ cap) :
    Holds (buf.take pos ++ part ++ buf.drop (pos + part.length)) (pos + part.length) cap (content ++ part) := by
  have length := holds.length
  have size := holds.size
  rw [holds.front]
  refine ⟨?_, fits, holds.positive, List.take_left' (by simp [length])⟩
  simp only [List.length_append, List.length_drop]
  omega

/-- Overwriting what was filled leaves an empty buffer of the same size. -/
theorem Holds.clear (holds : Holds buf pos cap content) (fill : α) :
    Holds (List.replicate pos fill ++ buf.drop pos) 0 cap [] := by
  have size := holds.size
  have room := holds.room
  refine ⟨?_, Nat.zero_le _, holds.positive, rfl⟩
  simp only [List.length_append, List.length_replicate, List.length_drop]
  omega

end LexiDB.Lib
