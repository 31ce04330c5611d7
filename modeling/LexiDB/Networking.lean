import LexiDB.Lib.Bytes

/-! The address parser of networking.c. -/

namespace LexiDB

open Lib

/-- What the loop of `parse_addr` carries: the address so far, the place of the next
octet and the octet being read. -/
structure AddrScan where
  addr : UInt32
  shift : UInt8
  t : Int8
  deriving DecidableEq, Repr

/-- `(uint32_t)t`, which extends the sign. -/
def widened (t : Int8) : UInt32 := t.toInt32.toUInt32

/-- One character. Behind a fourth dot C leaves the shift undefined; it is masked here
as x86 masks it. -/
def AddrScan.next (s : AddrScan) (byte : UInt8) : AddrScan :=
  if byte = ascii '.' then ⟨s.addr ^^^ (widened s.t <<< s.shift.toUInt32), s.shift - 8, 0⟩
  else { s with t := s.t * 10 + (byte.toInt8 - 48) }

def parseAddr (addrStr : List UInt8) : UInt32 :=
  let s := (untilNul addrStr).foldl AddrScan.next ⟨0, 24, 0⟩
  s.addr ^^^ widened s.t

section Octets

/-- An address as it is written. -/
def dotted (a b c d : UInt8) : List UInt8 :=
  decimal a.toNat ++ ascii '.' :: (decimal b.toNat ++ ascii '.' :: (decimal c.toNat ++ ascii '.' :: decimal d.toNat))

private theorem digit_next {byte : UInt8} (digit : isDigit byte = true) {s : AddrScan} (reads : s.t = Int8.ofNat acc) :
    s.next byte = { s with t := Int8.ofNat (pushDigit acc byte) } := by
  simp only [isDigit, Bool.and_eq_true, decide_eq_true_eq] at digit
  have other : byte ≠ ascii '.' := by
    rintro rfl
    exact absurd digit.1 (by decide)
  have same : byte.toInt8 = Int8.ofNat byte.toNat := by
    rw [← Int8.toBitVec_inj]
    simp
  have value : byte.toInt8 - 48 = Int8.ofNat (digitValue byte) := by rw [digitValue, Int8.ofNat_sub _ _ digit.1, same]; rfl
  rw [AddrScan.next, if_neg other, reads, value, pushDigit, Int8.ofNat_add, Int8.ofNat_mul]
  rfl

private theorem digits_scan {digits : List UInt8} (all : ∀ byte ∈ digits, isDigit byte = true) {s : AddrScan} (acc : Nat) (reads : s.t = Int8.ofNat acc) :
    digits.foldl AddrScan.next s = { s with t := Int8.ofNat (digits.foldl pushDigit acc) } := by
  induction digits generalizing s acc with
  | nil => rw [List.foldl_nil, List.foldl_nil, ← reads]
  | cons byte digits ih =>
    rw [List.foldl_cons, digit_next (all byte (List.mem_cons_self ..)) reads, List.foldl_cons,
      ih (fun other member => all other (List.mem_cons_of_mem _ member)) _ rfl]

/-- The digits of an octet leave it in the accumulator, as far as that goes. -/
theorem decimal_scan (octet : UInt8) (addr : UInt32) (shift : UInt8) :
    (decimal octet.toNat).foldl AddrScan.next ⟨addr, shift, 0⟩ = ⟨addr, shift, octet.toInt8⟩ := by
  have same : Int8.ofNat octet.toNat = octet.toInt8 := by
    rw [← Int8.toBitVec_inj]
    simp
  rw [digits_scan (fun _ => isDigit_of_mem_decimal) 0 rfl, ← decimalValue, decimalValue_decimal, same]

/-- What the code makes of four octets: each widened to 32 bits as a signed byte. -/
theorem parseAddr_dotted (a b c d : UInt8) :
    parseAddr (dotted a b c d) =
      widened a.toInt8 <<< 24 ^^^ widened b.toInt8 <<< 16 ^^^ widened c.toInt8 <<< 8 ^^^ widened d.toInt8 := by
  have free : 0 ∉ dotted a b c d := by
    have digits (n : Nat) : 0 ∉ decimal n := fun member => absurd (isDigit_of_mem_decimal member) (by decide)
    simp only [dotted, List.mem_append, List.mem_cons, digits, false_or, or_false]
    decide
  have dot (addr : UInt32) (shift : UInt8) (t : Int8) :
      AddrScan.next ⟨addr, shift, t⟩ (ascii '.') = ⟨addr ^^^ (widened t <<< shift.toUInt32), shift - 8, 0⟩ := if_pos rfl
  rw [parseAddr, untilNul_of_free free, dotted]
  simp only [List.foldl_append, List.foldl_cons, decimal_scan, dot]
  simp

/-- The bits that the sign puts above the octet. -/
def signBits (octet : UInt8) : UInt32 := if octet.toNat ≤ 127 then 0 else 0xFFFFFF00

theorem widened_toInt8 (octet : UInt8) : widened octet.toInt8 = octet.toUInt32 ^^^ signBits octet := by
  have every : ∀ n, n < 256 → widened (UInt8.ofNat n).toInt8 = (UInt8.ofNat n).toUInt32 ^^^ signBits (UInt8.ofNat n) := by
    decide +kernel
  simpa using every octet.toNat octet.toNat_lt

private theorem xor_of_lt (x : Nat) {y k : Nat} (below : y < 2 ^ k) : 2 ^ k * x ^^^ y = 2 ^ k * x + y := by
  apply Nat.eq_of_testBit_eq
  intro i
  rw [Nat.testBit_xor, Nat.testBit_two_pow_mul, Nat.testBit_two_pow_mul_add x below]
  by_cases low : i < k
  · simp [low, Nat.not_le.mpr low]
  · have zero : y.testBit i = false := Nat.testBit_lt_two_pow (Nat.lt_of_lt_of_le below (Nat.pow_le_pow_right Nat.two_pos (Nat.le_of_not_lt low)))
    simp [low, Nat.le_of_not_lt low, zero]

/-- The octets side by side. -/
def joined (a b c d : UInt8) : UInt32 := a.toUInt32 <<< 24 ^^^ b.toUInt32 <<< 16 ^^^ c.toUInt32 <<< 8 ^^^ d.toUInt32

theorem joined_toNat (a b c d : UInt8) :
    (joined a b c d).toNat = a.toNat * 2 ^ 24 + b.toNat * 2 ^ 16 + c.toNat * 2 ^ 8 + d.toNat := by
  have inside (octet : UInt8) : octet.toNat < 256 := octet.toNat_lt
  have shifted (octet : UInt8) (k : Nat) (small : k ≤ 24) : octet.toNat <<< k % 2 ^ 32 = 2 ^ k * octet.toNat := by
    have fits : octet.toNat * 2 ^ k < 2 ^ 8 * 2 ^ 24 := Nat.mul_lt_mul_of_lt_of_le (inside octet) (Nat.pow_le_pow_right Nat.two_pos small) (by simp)
    rw [Nat.shiftLeft_eq, Nat.mod_eq_of_lt (by simpa using fits), Nat.mul_comm]
  simp only [joined, UInt32.toNat_xor, UInt32.toNat_shiftLeft, UInt8.toNat_toUInt32]
  have hb := inside b
  have hc := inside c
  have hd := inside d
  change (a.toNat <<< 24 % 2 ^ 32 ^^^ b.toNat <<< 16 % 2 ^ 32 ^^^ c.toNat <<< 8 % 2 ^ 32 ^^^ d.toNat) = _
  rw [shifted a 24 (by omega), shifted b 16 (by omega), shifted c 8 (by omega), Nat.xor_assoc, Nat.xor_assoc,
    xor_of_lt c.toNat (by omega : d.toNat < 2 ^ 8), xor_of_lt b.toNat (by omega), xor_of_lt a.toNat (by omega)]
  omega

/-- The sign bits of the three last octets, each in its place. -/
def smeared (b c d : UInt8) : UInt32 := signBits b <<< 16 ^^^ signBits c <<< 8 ^^^ signBits d

theorem smeared_eq_zero (b c d : UInt8) : smeared b c d = 0 ↔ b.toNat ≤ 127 ∧ c.toNat ≤ 127 ∧ d.toNat ≤ 127 := by
  unfold smeared signBits
  by_cases hb : b.toNat ≤ 127 <;> by_cases hc : c.toNat ≤ 127 <;> by_cases hd : d.toNat ≤ 127 <;>
    simp only [hb, hc, hd, ↓reduceIte, and_self, and_true, and_false, iff_true, iff_false] <;> decide

private theorem xor_regroup (a b c d x y z : UInt32) : a ^^^ (b ^^^ x) ^^^ (c ^^^ y) ^^^ (d ^^^ z) = a ^^^ b ^^^ c ^^^ d ^^^ (x ^^^ y ^^^ z) := by
  ac_rfl

theorem parseAddr_eq (a b c d : UInt8) : parseAddr (dotted a b c d) = joined a b c d ^^^ smeared b c d := by
  have first : signBits a <<< 24 = 0 := by
    unfold signBits
    split <;> rfl
  rw [parseAddr_dotted, widened_toInt8, widened_toInt8, widened_toInt8, widened_toInt8, UInt32.shiftLeft_xor, UInt32.shiftLeft_xor,
    UInt32.shiftLeft_xor, first, UInt32.xor_zero, joined, smeared]
  exact xor_regroup ..

/-- An address is read as it is written exactly if its last three octets fit a signed
byte. -/
theorem parseAddr_exact_iff (a b c d : UInt8) :
    (parseAddr (dotted a b c d)).toNat = a.toNat * 2 ^ 24 + b.toNat * 2 ^ 16 + c.toNat * 2 ^ 8 + d.toNat ↔
      b.toNat ≤ 127 ∧ c.toNat ≤ 127 ∧ d.toNat ≤ 127 := by
  rw [← joined_toNat, ← smeared_eq_zero, UInt32.toNat_inj, parseAddr_eq]
  constructor
  · intro same
    rw [← UInt32.xor_right_inj (joined a b c d), same, UInt32.xor_zero]
  · intro none_
    rw [none_, UInt32.xor_zero]

/-- The sign of 168 inverts the octet before it: 63.168.1.1 is bound instead. -/
theorem parseAddr_counterexample :
    dotted 192 168 1 1 = cstr "192.168.1.1" ∧ (parseAddr (dotted 192 168 1 1)).toNat ≠ 192 * 2 ^ 24 + 168 * 2 ^ 16 + 1 * 2 ^ 8 + 1 := by
  decide

end Octets

end LexiDB
