import LexiDB.Object
import LexiDB.VstrInvariant

/-! What `object_cmp` can tell apart, in terms of the values compared. -/

namespace LexiDB

open Lib

/-- The pairs of values that `object_cmp` takes for equal: Ints that differ by a
multiple of 2^32, any two Bools, and strings of one length that agree up to a
NUL. -/
def Scalar.Confused : Scalar → Scalar → Prop
  | .int a, .int b => (2 ^ 32 : Int) ∣ a.toInt - b.toInt
  | .bool _, .bool _ => True
  | .string a, .string b => a.length = b.length ∧ untilNul a = untilNul b
  | _, _ => False

theorem Scalar.Confused.refl (value : Scalar) : value.Confused value := by
  cases value <;> simp [Confused]

/-- The string of a string object keeps its representation invariant. -/
def Object.StringValid : Object → Prop
  | .string s => s.Valid
  | _ => True

private theorem narrowed_eq_zero (a b : Int64) : (a - b).toInt32.toInt = 0 ↔ (2 ^ 32 : Int) ∣ a.toInt - b.toInt := by
  rw [Int64.toInt_toInt32, Int64.toInt_sub, ← Int.dvd_iff_bmod_eq_zero]
  rw [show (2 ^ 32 : Int) = ((2 ^ 32 : Nat) : Int) by norm_num]
  have split := Int.bmod_add_bdiv (a.toInt - b.toInt) (2 ^ 64)
  constructor
  · intro divides
    rw [← split]
    exact Int.dvd_add divides (Dvd.dvd.mul_right (by norm_num) _)
  · intro divides
    rw [← split] at divides
    exact (Int.dvd_add_left (Dvd.dvd.mul_right (by norm_num) _)).mp divides

/-- `vstr_cmp` answers zero exactly on strings of one length that agree up to a
NUL. -/
theorem vstrCmp_eq_zero {a b : Vstr} (left : a.Valid) (right : b.Valid) :
    vstrCmp a b = 0 ↔ a.bytes.length = b.bytes.length ∧ untilNul a.bytes = untilNul b.bytes := by
  unfold vstrCmp
  rw [left.length, right.length]
  split
  · rename_i same
    rw [strncmp_eq_zero left.data_long (same ▸ right.data_long)]
    simp [Vstr.bytes, same]
  · rename_i different
    simp only [different, false_and, iff_false]
    split <;>
    · intro zero
      split at zero
      · cases zero
      · rename_i nonzero
        exact nonzero zero

/-- On scalars `object_cmp` answers zero exactly for the confused pairs. -/
theorem objectCmp_eq_zero {a b : Object} (left : a.StringValid) (right : b.StringValid)
    (first : a.scalar = some x) (second : b.scalar = some y) : objectCmp a b = 0 ↔ x.Confused y := by
  cases a <;> simp only [Object.scalar, Option.some.injEq, reduceCtorEq] at first <;> subst first <;>
  cases b <;> simp only [Object.scalar, Option.some.injEq, reduceCtorEq] at second <;> subst second
  case int.int a b => simpa [objectCmp, Object.type, Scalar.Confused] using narrowed_eq_zero a b
  case bool.bool => simp [objectCmp, Object.type, Scalar.Confused]
  case string.string a b => simpa [objectCmp, Object.type, Scalar.Confused] using vstrCmp_eq_zero left right
  all_goals simp [objectCmp, Object.type, Scalar.Confused]

/-- A requested key is clear of a stored one: if they are the same value, their
structs hold the same bytes, and if not, `object_cmp` tells them apart. -/
def ClearOf (env : Env) (key stored : Object) : Prop :=
  ∀ x y, key.scalar = some x → stored.scalar = some y →
    (x = y → stored.raw env = key.raw env) ∧ (x ≠ y → ¬ x.Confused y)

/-- Then the comparison decides equality of values. -/
theorem ClearOf.compare {env : Env} {key stored : Object} (clear : ClearOf env key stored) (left : key.StringValid)
    (right : stored.StringValid) (first : key.scalar.isSome) (second : stored.scalar.isSome) :
    objectCmp key stored = 0 ↔ stored.scalar = key.scalar := by
  obtain ⟨x, readKey⟩ := Option.isSome_iff_exists.mp first
  obtain ⟨y, readStored⟩ := Option.isSome_iff_exists.mp second
  rw [objectCmp_eq_zero left right readKey readStored, readKey, readStored, Option.some.injEq]
  constructor
  · intro confused
    by_contra different
    exact (clear x y readKey readStored).2 (Ne.symm different) confused
  · rintro rfl
    exact .refl _

theorem ClearOf.raw_eq {env : Env} {key stored : Object} (clear : ClearOf env key stored) (first : key.scalar.isSome)
    (same : stored.scalar = key.scalar) : stored.raw env = key.raw env := by
  obtain ⟨x, readKey⟩ := Option.isSome_iff_exists.mp first
  exact (clear x x readKey (same.trans readKey)).1 rfl

/-- `vstr_cmp` decides equality of all strings but those that differ only behind a
NUL at which `strncmp` stops. -/
theorem vstrCmp_decides_iff {a b : Vstr} (left : a.Valid) (right : b.Valid) :
    (vstrCmp a b = 0 ↔ vstrLen a = vstrLen b ∧ a.bytes = b.bytes) ↔ ¬DifferBehindNul a.bytes b.bytes := by
  rw [vstrCmp_eq_zero left right, ← left.length, ← right.length]
  constructor
  · intro decides differ
    obtain ⟨front, x, y, readA, readB, long, different⟩ := differ
    have same : a.bytes.length = b.bytes.length := by simp [readA, readB, long]
    have equal := (decides.mp ⟨same, (untilNul_eq_iff same).mpr (.inr ⟨front, x, y, readA, readB, long, different⟩)⟩).2
    rw [readA, readB] at equal
    exact different (List.cons.inj (List.append_cancel_left equal)).2
  · intro tells
    refine and_congr_right fun same => ?_
    rw [untilNul_eq_iff same]
    exact or_iff_left tells

/-- The same bytes, one of them a NUL, in either layout. -/
theorem vstrCmp_decides_iff_layouts :
    vstrCmp ⟨.sm (ascii 'a' :: 0 :: ascii 'b' :: List.replicate 20 0), 20⟩ ⟨.lg ⟨8, [ascii 'a', 0, ascii 'b', 0], 4, 3⟩, 0⟩ = 0 := by
  have decides := (vstrCmp_decides_iff (a := ⟨.sm (ascii 'a' :: 0 :: ascii 'b' :: List.replicate 20 0), 20⟩)
    (b := ⟨.lg ⟨8, [ascii 'a', 0, ascii 'b', 0], 4, 3⟩, 0⟩) ⟨rfl, by decide⟩ ⟨rfl, by decide, by decide⟩).mpr ?_
  · exact decides.mpr ⟨rfl, rfl⟩
  · rintro ⟨front, x, y, first, second, _, different⟩
    exact different (List.cons.inj (List.append_cancel_left (first.symm.trans second))).2

/-- Two keys of three bytes that the wire parser takes, and that are one key here. -/
theorem vstrCmp_decides_counterexample :
    let a := vstrFromLen (.granted 0) [ascii 'a', 0, ascii 'b'] 3
    let b := vstrFromLen (.granted 0) [ascii 'a', 0, ascii 'c'] 3
    a.Valid ∧ b.Valid ∧ ¬(vstrCmp a b = 0 ↔ vstrLen a = vstrLen b ∧ a.bytes = b.bytes) := by
  refine ⟨⟨rfl, by decide⟩, ⟨rfl, by decide⟩, ?_⟩
  decide

section Plain

/-- An Int or a Bool, of any value. -/
def Object.Plain : Object → Prop
  | .int _ | .bool _ => True
  | _ => False

/-- Two Ints whose difference is lost by the `int` that is returned, and two Bools. -/
def Object.Collides : Object → Object → Prop
  | .int x, .int y => x ≠ y ∧ (2 ^ 32 : Int) ∣ x.toInt - y.toInt
  | .bool x, .bool y => x ≠ y
  | _, _ => False

/-- Between Ints and Bools `object_cmp` decides equality exactly where the narrowed
difference does, and never tells two Bools apart. -/
theorem objectCmp_decides_iff {a b : Object} (left : a.Plain) (right : b.Plain) :
    (objectCmp a b = 0 ↔ a = b) ↔ ¬a.Collides b := by
  cases a <;> simp only [Object.Plain] at left <;> cases b <;> simp only [Object.Plain] at right
  case int.int x y =>
    have narrowed : objectCmp (.int x) (.int y) = 0 ↔ (2 ^ 32 : Int) ∣ x.toInt - y.toInt := by
      simpa [objectCmp, Object.type] using narrowed_eq_zero x y
    simp only [narrowed, Object.int.injEq, Object.Collides]
    constructor
    · intro decides collide
      exact collide.1 (decides.mp collide.2)
    · intro apart
      refine ⟨fun divides => by_contra fun different => apart ⟨different, divides⟩, ?_⟩
      rintro rfl
      simp
  case bool.bool x y =>
    have zero : objectCmp (.bool x) (.bool y) = 0 := by simp [objectCmp, Object.type]
    simp only [zero, true_iff, Object.bool.injEq, Object.Collides, not_not]
  all_goals simp [objectCmp, Object.type, Object.Collides]

theorem objectCmp_decides_iff_neighbours : objectCmp (.int 1) (.int 2) ≠ 0 := by
  intro zero
  have decides := (objectCmp_decides_iff (a := .int 1) (b := .int 2) trivial trivial).mpr (by unfold Object.Collides; decide)
  cases decides.mp zero

/-- 0 and 2^32 are one key, and so are the two Bools. -/
theorem objectCmp_decides_counterexample :
    ¬(objectCmp (.int 0) (.int (2 ^ 32)) = 0 ↔ Object.int 0 = .int (2 ^ 32)) ∧ ¬(objectCmp (.bool 0) (.bool 1) = 0 ↔ Object.bool 0 = .bool 1) := by
  simp only [Object.int.injEq, Object.bool.injEq]
  decide

end Plain

end LexiDB
