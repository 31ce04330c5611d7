import Mathlib.Data.List.Basic
import Mathlib.Data.List.TakeWhile
import Mathlib.Data.Nat.Digits.Defs

/-! Byte strings of the C world: little-endian words, the comparison loops of
`string.h`, and ASCII decimal numerals as `%lu` and `%ld` print them and as a
digit-accumulating scanner reads them back. -/

namespace LexiDB.Lib

/-- The byte of an ASCII character. -/
def ascii (c : Char) : UInt8 := c.toUInt8

/-- The bytes of a string literal of ASCII characters, without its terminator. -/
def cstr (s : String) : List UInt8 := s.toList.map ascii

/-- The `width` low bytes of a word in memory order. -/
def leBytes (width value : Nat) : List UInt8 :=
  (List.range width).map fun i => UInt8.ofNat (value / 256 ^ i)

@[simp] theorem leBytes_length (width value : Nat) : (leBytes width value).length = width := by
  simp [leBytes]

/-- `memcmp` over two equally long buffers: the difference of the first pair of
bytes that differ. -/
def memcmp : List UInt8 → List UInt8 → Int
  | a :: as, b :: bs => if a = b then memcmp as bs else (a.toNat : Int) - b.toNat
  | _, _ => 0

/-- `strncmp` reads at most `n` bytes of each buffer and stops at a shared NUL. -/
def strncmp : Nat → List UInt8 → List UInt8 → Int
  | n + 1, a :: as, b :: bs =>
    if a = b then (if a = 0 then 0 else strncmp n as bs) else (a.toNat : Int) - b.toNat
  | _, _, _ => 0

private theorem toNat_sub_ne {a b : UInt8} (different : a ≠ b) : (a.toNat : Int) - b.toNat ≠ 0 := by
  intro same
  exact different (UInt8.toNat_inj.mp (by omega))

/-- A buffer compares equal to its own front. -/
theorem memcmp_eq_zero {a b : List UInt8} (long : b.length ≤ a.length) : memcmp a b = 0 ↔ a.take b.length = b := by
  induction b generalizing a with
  | nil => simp [memcmp]
  | cons y ys ih =>
    cases a with
    | nil => simp at long
    | cons x xs =>
      simp only [List.length_cons, Nat.add_le_add_iff_right] at long
      by_cases same : x = y
      · simp [memcmp, same, ih long]
      · simp [memcmp, same, toNat_sub_ne same]

/-- What `strncmp` can tell apart: the bytes up to and including a NUL. -/
def untilNul (bytes : List UInt8) : List UInt8 := bytes.takeWhile (· ≠ 0)

theorem untilNul_of_free {bytes : List UInt8} (free : 0 ∉ bytes) : untilNul bytes = bytes := by
  refine List.takeWhile_eq_self_iff.mpr ?_
  intro byte member
  simpa using fun zero : byte = 0 => free (zero ▸ member)

/-- Without a NUL it is the whole text, and otherwise the NUL stands behind it. -/
theorem untilNul_cases (bytes : List UInt8) : untilNul bytes = bytes ∨ ∃ rest, bytes = untilNul bytes ++ 0 :: rest := by
  induction bytes with
  | nil => exact .inl rfl
  | cons byte bytes ih =>
    by_cases nul : byte = 0
    · exact .inr ⟨bytes, by simp [untilNul, nul]⟩
    · have front : untilNul (byte :: bytes) = byte :: untilNul bytes := by simp [untilNul, nul]
      rw [front]
      rcases ih with whole | ⟨rest, split⟩
      · exact .inl (by rw [whole])
      · exact .inr ⟨rest, by rw [List.cons_append, ← split]⟩

/-- Two texts of one length that differ, but only behind a NUL they share. -/
def DifferBehindNul (a b : List UInt8) : Prop :=
  ∃ front x y, a = front ++ 0 :: x ∧ b = front ++ 0 :: y ∧ x.length = y.length ∧ x ≠ y

theorem untilNul_append_nul (front rest : List UInt8) : untilNul (front ++ 0 :: rest) = untilNul front := by
  induction front with
  | nil => rfl
  | cons byte front ih =>
    by_cases nul : byte = 0
    · simp [untilNul, nul]
    · simpa [untilNul, nul] using ih

/-- Texts of one length that `strncmp` takes for equal. -/
theorem untilNul_eq_iff {a b : List UInt8} (same : a.length = b.length) :
    untilNul a = untilNul b ↔ a = b ∨ DifferBehindNul a b := by
  constructor
  · intro agree
    rcases untilNul_cases a with wholeA | ⟨x, splitA⟩ <;> rcases untilNul_cases b with wholeB | ⟨y, splitB⟩
    · exact .inl (by rw [← wholeA, agree, wholeB])
    · -- a NUL in one of them only makes it the longer one
      rw [splitB, ← agree, wholeA, List.length_append, List.length_cons] at same
      omega
    · rw [splitA, agree, wholeB, List.length_append, List.length_cons] at same
      omega
    · by_cases equal : x = y
      · exact .inl (by rw [splitA, splitB, agree, equal])
      · refine .inr ⟨untilNul a, x, y, splitA, agree ▸ splitB, ?_, equal⟩
        rw [splitA, splitB, agree, List.length_append, List.length_append] at same
        simpa using same
  · rintro (rfl | ⟨front, x, y, rfl, rfl, _, _⟩)
    · rfl
    · rw [untilNul_append_nul, untilNul_append_nul]

/-- Two equally long strings compare equal exactly when they agree up to the
first NUL of either; whatever follows it is not looked at. -/
theorem strncmp_eq_zero (left : n ≤ a.length) (right : n ≤ b.length) :
    strncmp n a b = 0 ↔ untilNul (a.take n) = untilNul (b.take n) := by
  induction n generalizing a b with
  | zero => simp [strncmp]
  | succ n ih =>
    cases a with
    | nil => simp at left
    | cons x xs =>
      cases b with
      | nil => simp at right
      | cons y ys =>
        simp only [List.length_cons, Nat.add_le_add_iff_right] at left right
        have rest := ih left right
        by_cases same : x = y
        · subst y
          by_cases nul : x = 0
          · simp [strncmp, nul, untilNul]
          · simpa [strncmp, nul, untilNul] using rest
        · simp only [strncmp, same, ↓reduceIte, toNat_sub_ne same, false_iff]
          intro equal
          by_cases zx : x = 0 <;> by_cases zy : y = 0 <;> simp_all [untilNul]

/-- The C library's `isdigit` on an unsigned byte. -/
def isDigit (byte : UInt8) : Bool := 48 ≤ byte.toNat && byte.toNat ≤ 57

/-- The value a digit byte contributes, `byte - '0'`. -/
def digitValue (byte : UInt8) : Nat := byte.toNat - 48

def decimal (n : Nat) : List UInt8 := (Nat.toDigits 10 n).map ascii

def signedDecimal (i : Int) : List UInt8 :=
  if i < 0 then ascii '-' :: decimal i.natAbs else decimal i.natAbs

/-- One round of a digit accumulator. -/
def pushDigit (acc : Nat) (byte : UInt8) : Nat := acc * 10 + digitValue byte

/-- The number a digit string denotes. -/
def decimalValue (digits : List UInt8) : Nat := digits.foldl pushDigit 0

private theorem ascii_toNat {c : Char} (digit : c.isDigit = true) : (ascii c).toNat = c.toNat := by
  simp only [Char.isDigit, Bool.and_eq_true, decide_eq_true_eq] at digit
  have bound : c.val.toNat ≤ 57 := UInt32.le_iff_toNat_le.mp digit.2
  simp only [ascii, Char.toUInt8, UInt32.toNat_toUInt8, Char.toNat]
  omega

private theorem isDigit_ascii {c : Char} (digit : c.isDigit = true) : isDigit (ascii c) = true := by
  have same := ascii_toNat digit
  simp only [Char.isDigit, Bool.and_eq_true, decide_eq_true_eq] at digit
  have lower : 48 ≤ c.val.toNat := UInt32.le_iff_toNat_le.mp digit.1
  have upper : c.val.toNat ≤ 57 := UInt32.le_iff_toNat_le.mp digit.2
  simp only [isDigit, same, Char.toNat, Bool.and_eq_true, decide_eq_true_eq]
  omega

theorem isDigit_of_mem_decimal {byte : UInt8} (member : byte ∈ decimal n) : isDigit byte = true := by
  obtain ⟨c, present, same⟩ := List.mem_map.mp member
  subst byte
  exact isDigit_ascii (Nat.isDigit_of_mem_toDigits (by omega) (by omega) present)

theorem decimal_ne_nil (n : Nat) : decimal n ≠ [] := by
  simp [decimal, Nat.toDigits_ne_nil]

theorem decimal_length_pos (n : Nat) : 0 < (decimal n).length :=
  List.length_pos_of_ne_nil (decimal_ne_nil n)

/-- Every 64-bit unsigned number prints in at most twenty digits. -/
theorem decimal_length_le (bound : n < 2 ^ 64) : (decimal n).length ≤ 20 := by
  have fits : n < 10 ^ 20 := Nat.lt_of_lt_of_le bound (by norm_num)
  simpa [decimal] using Nat.toDigits_length 10 n 20 (by omega) fits

theorem signedDecimal_length_le (bound : i.natAbs < 2 ^ 64) : (signedDecimal i).length ≤ 21 := by
  have digits := decimal_length_le bound
  unfold signedDecimal
  split
  · rw [List.length_cons]
    omega
  · omega

theorem signedDecimal_ne_nil (i : Int) : signedDecimal i ≠ [] := by
  unfold signedDecimal
  split
  · simp
  · exact decimal_ne_nil _

private theorem foldl_ascii (chars : List Char) (digits : ∀ c ∈ chars, c.isDigit = true) (acc : Nat) :
    (chars.map ascii).foldl pushDigit acc = Nat.ofDigitChars 10 chars acc := by
  induction chars generalizing acc with
  | nil => simp [Nat.ofDigitChars]
  | cons c rest ih =>
    have same := ascii_toNat (digits c (by simp))
    have rest := ih (fun other member => digits other (by simp [member]))
    simp only [List.map_cons, List.foldl_cons, rest, Nat.ofDigitChars_cons, pushDigit, digitValue, same]
    congr 1
    simp [Nat.mul_comm]

/-- Reading the digits of a printed number back gives the number. -/
theorem decimalValue_decimal (n : Nat) : decimalValue (decimal n) = n := by
  unfold decimalValue decimal
  rw [foldl_ascii _ (fun c member => Nat.isDigit_of_mem_toDigits (by omega) (by omega) member)]
  exact Nat.ofDigitChars_ten_toDigits

/-- Every byte of a printed signed number is a digit or the minus sign. -/
theorem signedDecimal_bytes {byte : UInt8} (member : byte ∈ signedDecimal i) :
    isDigit byte = true ∨ byte = ascii '-' := by
  unfold signedDecimal at member
  split at member
  · rcases List.mem_cons.mp member with sign | digit
    · exact .inr sign
    · exact .inl (isDigit_of_mem_decimal digit)
  · exact .inl (isDigit_of_mem_decimal member)

/-- The number a signed numeral denotes. -/
def signedValue : List UInt8 → Int
  | sign :: digits => if sign = ascii '-' then -(decimalValue digits : Int) else decimalValue (sign :: digits)
  | [] => 0

theorem signedValue_signedDecimal (i : Int) : signedValue (signedDecimal i) = i := by
  unfold signedDecimal
  split
  · simp only [signedValue, ↓reduceIte, decimalValue_decimal]
    omega
  · obtain ⟨digit, rest, digits⟩ := List.exists_cons_of_ne_nil (decimal_ne_nil i.natAbs)
    have first : isDigit digit = true := isDigit_of_mem_decimal (n := i.natAbs) (by rw [digits]; simp)
    have unsigned : digit ≠ ascii '-' := by
      intro same
      rw [same] at first
      exact absurd first (by decide)
    have value := decimalValue_decimal i.natAbs
    rw [digits] at value ⊢
    simp only [signedValue, unsigned, ↓reduceIte, value]
    omega

/-- The longest front of wanted bytes, and what a scan that sees `stop` at the end
stands on behind it. -/
theorem exists_span (wanted : α → Bool) {stop : α} (ends : wanted stop = false) (l : List α) :
    ∃ front tail, l = front ++ tail ∧ (∀ a ∈ front, wanted a = true) ∧ wanted (tail.headD stop) = false := by
  refine ⟨l.takeWhile wanted, l.dropWhile wanted, List.takeWhile_append_dropWhile.symm, fun _ => List.mem_takeWhile_imp, ?_⟩
  cases tail : l.dropWhile wanted with
  | nil => exact ends
  | cons first rest =>
    have unwanted := List.head_dropWhile_not wanted (by rw [tail]; simp)
    simpa [tail] using unwanted

end LexiDB.Lib
