import Mathlib.Data.Fintype.BigOperators
import Mathlib.Data.Fintype.Pigeonhole
import Mathlib.Data.Fintype.Vector
import Mathlib.Data.Nat.Prime.Basic
import LexiDB.Sha256
import LexiDB.Lib.Absorb

/-! The digest of sha256.c is that of FIPS 180-4, however the message is cut into
pieces, and a collision of digests is one of `sha256_transform`. -/

namespace LexiDB

open Lib

namespace Fips

/-- The word turned to the right. -/
def rotr (n : Nat) (x : UInt32) : UInt32 := ⟨x.toBitVec.rotateRight n⟩

def shr (n : Nat) (x : UInt32) : UInt32 := ⟨x.toBitVec >>> n⟩

def ch (x y z : UInt32) : UInt32 := (x &&& y) ^^^ (~~~x &&& z)

def maj (x y z : UInt32) : UInt32 := (x &&& y) ^^^ (x &&& z) ^^^ (y &&& z)

def bigSigma0 (x : UInt32) : UInt32 := rotr 2 x ^^^ rotr 13 x ^^^ rotr 22 x

def bigSigma1 (x : UInt32) : UInt32 := rotr 6 x ^^^ rotr 11 x ^^^ rotr 25 x

def smallSigma0 (x : UInt32) : UInt32 := rotr 7 x ^^^ rotr 18 x ^^^ shr 3 x

def smallSigma1 (x : UInt32) : UInt32 := rotr 17 x ^^^ rotr 19 x ^^^ shr 10 x

/-- The number that bytes stand for, the highest of them first. -/
def beValue (bytes : List UInt8) : Nat := bytes.foldl (fun value byte => value * 256 + byte.toNat) 0

/-- The words of the message schedule of a block. -/
def schedule (block : List UInt8) (t : Nat) : UInt32 :=
  if t < 16 then UInt32.ofNat (beValue (load block (4 * t) 4))
  else smallSigma1 (schedule block (t - 2)) + schedule block (t - 7) + smallSigma0 (schedule block (t - 15)) +
    schedule block (t - 16)
termination_by t

/-- The constants, and the initial hash value: see `k_roots` and `initial_roots`. -/
def k (t : Nat) : UInt32 := Sha256.k.getD t 0

def initial : Sha256Words :=
  ⟨0x6a09e667, 0xbb67ae85, 0x3c6ef372, 0xa54ff53a, 0x510e527f, 0x9b05688c, 0x1f83d9ab, 0x5be0cd19⟩

/-- One of the 64 steps. -/
def step (block : List UInt8) (v : Sha256Words) (t : Nat) : Sha256Words :=
  let t1 := v.h + bigSigma1 v.e + ch v.e v.f v.g + k t + schedule block t
  let t2 := bigSigma0 v.a + maj v.a v.b v.c
  ⟨t1 + t2, v.a, v.b, v.c, v.d + t1, v.e, v.f, v.g⟩

/-- The next intermediate hash value. -/
def compress (s : Sha256Words) (block : List UInt8) : Sha256Words :=
  s.add ((List.range 64).foldl (step block) s)

/-- The padded message, in blocks of 512 bits. -/
def blocks (message : List UInt8) : List (List UInt8) := blocksOf 64 (strengthened 64 8 message)

def bytes (s : Sha256Words) : List UInt8 :=
  [s.a, s.b, s.c, s.d, s.e, s.f, s.g, s.h].flatMap fun word => beBytes 4 word.toNat

/-- SHA-256 of a message of whole bytes. -/
def sha256 (message : List UInt8) : List UInt8 := bytes ((blocks message).foldl compress initial)

section Constants

/-- The first 32 bits behind the point of the `n`-th root of `p`. -/
def IsRootBits (n p bits : Nat) : Prop :=
  ∃ whole < p, (whole * 2 ^ 32 + bits) ^ n ≤ p * 2 ^ (32 * n) ∧ p * 2 ^ (32 * n) < (whole * 2 ^ 32 + bits + 1) ^ n

instance (n p bits : Nat) : Decidable (IsRootBits n p bits) := inferInstanceAs (Decidable (∃ whole < p, _))

def primes : List Nat := [
  2, 3, 5, 7, 11, 13, 17, 19, 23, 29, 31, 37, 41, 43, 47, 53, 59, 61, 67, 71, 73, 79, 83, 89, 97, 101, 103, 107, 109,
  113, 127, 131, 137, 139, 149, 151, 157, 163, 167, 173, 179, 181, 191, 193, 197, 199, 211, 223, 227, 229, 233, 239,
  241, 251, 257, 263, 269, 271, 277, 281, 283, 293, 307, 311]

theorem primes_eq : primes = (List.range 312).filter fun p => Nat.Prime p := by decide +kernel

/-- The table is that of the cube roots of the first 64 primes. -/
theorem k_roots : ∀ t < 64, IsRootBits 3 (primes.getD t 0) (k t).toNat := by decide +kernel

/-- The initial value is that of the square roots of the first eight. -/
theorem initial_roots :
    ∀ t < 8, IsRootBits 2 (primes.getD t 0)
      (([initial.a, initial.b, initial.c, initial.d, initial.e, initial.f, initial.g, initial.h].getD t 0).toNat) := by
  decide +kernel

end Constants

end Fips

section Words

open Sha256

theorem ep0_eq (x : UInt32) : ep0 x = Fips.bigSigma0 x := by
  apply UInt32.toBitVec_inj.mp
  simp [ep0, rotRight, Fips.bigSigma0, Fips.rotr, BitVec.rotateRight_def]

theorem ep1_eq (x : UInt32) : ep1 x = Fips.bigSigma1 x := by
  apply UInt32.toBitVec_inj.mp
  simp [ep1, rotRight, Fips.bigSigma1, Fips.rotr, BitVec.rotateRight_def]

theorem sig0_eq (x : UInt32) : sig0 x = Fips.smallSigma0 x := by
  apply UInt32.toBitVec_inj.mp
  simp [sig0, rotRight, Fips.smallSigma0, Fips.rotr, Fips.shr, BitVec.rotateRight_def]

theorem sig1_eq (x : UInt32) : sig1 x = Fips.smallSigma1 x := by
  apply UInt32.toBitVec_inj.mp
  simp [sig1, rotRight, Fips.smallSigma1, Fips.rotr, Fips.shr, BitVec.rotateRight_def]

/-- Four bytes moved to their places are the digits of the word. -/
theorem placed_bytes (a b c d : UInt8) :
    (a.toUInt32 <<< 24) ||| (b.toUInt32 <<< 16) ||| (c.toUInt32 <<< 8) ||| d.toUInt32 =
      UInt32.ofNat (Fips.beValue [a, b, c, d]) := by
  have smallA := a.toNat_lt
  have smallB := b.toNat_lt
  have smallC := c.toNat_lt
  have smallD := d.toNat_lt
  have wide : ∀ {n m : Nat}, n < 2 ^ 8 → m ≤ 24 → n <<< m % 2 ^ 32 = n <<< m := by
    intro n m small short
    have scaled : n * 2 ^ m ≤ 255 * 2 ^ 24 := Nat.mul_le_mul (by omega) (Nat.pow_le_pow_right (by omega) short)
    rw [Nat.shiftLeft_eq]
    omega
  -- below a shifted byte nothing overlaps it
  have low := Nat.shiftLeft_add_eq_or_of_lt (show d.toNat < 2 ^ 8 by omega) c.toNat
  have middle := Nat.shiftLeft_add_eq_or_of_lt (show c.toNat <<< 8 ||| d.toNat < 2 ^ 16 by
    rw [← low, Nat.shiftLeft_eq]
    omega) b.toNat
  have high := Nat.shiftLeft_add_eq_or_of_lt (show b.toNat <<< 16 ||| (c.toNat <<< 8 ||| d.toNat) < 2 ^ 24 by
    rw [← middle, ← low, Nat.shiftLeft_eq, Nat.shiftLeft_eq]
    omega) a.toNat
  apply UInt32.toNat_inj.mp
  have value : Fips.beValue [a, b, c, d] = ((a.toNat * 256 + b.toNat) * 256 + c.toNat) * 256 + d.toNat := by
    simp [Fips.beValue]
  simp only [UInt32.toNat_or, UInt32.toNat_shiftLeft, UInt8.toNat_toUInt32, UInt32.toNat_ofNat', value]
  change a.toNat <<< 24 % 2 ^ 32 ||| b.toNat <<< 16 % 2 ^ 32 ||| c.toNat <<< 8 % 2 ^ 32 ||| d.toNat = _
  rw [wide smallA (by decide), wide smallB (by decide), wide smallC (by decide), Nat.or_assoc, Nat.or_assoc, ← high,
    ← middle, ← low, Nat.shiftLeft_eq, Nat.shiftLeft_eq, Nat.shiftLeft_eq]
  omega

theorem sha256Word_eq {block : List UInt8} (inside : j + 4 ≤ block.length) :
    sha256Word block j = UInt32.ofNat (Fips.beValue (load block j 4)) := by
  have next : ∀ {i}, i < block.length → block.drop i = block.getD i 0 :: block.drop (i + 1) := by
    intro i here
    rw [List.drop_eq_getElem_cons here, List.getD_eq_getElem?_getD, List.getElem?_eq_getElem here, Option.getD_some]
  have front : load block j 4 = [block.getD j 0, block.getD (j + 1) 0, block.getD (j + 2) 0, block.getD (j + 3) 0] := by
    rw [load, next (i := j) (by omega), next (i := j + 1) (by omega), next (i := j + 2) (by omega), next (i := j + 3) (by omega)]
    rfl
  rw [sha256Word, placed_bytes, front]

theorem sha256Bytes_eq (word : UInt32) : sha256Bytes word = beBytes 4 word.toNat := by
  have low : ∀ n : Nat, n % 256 &&& 255 = n % 256 := by
    intro n
    rw [show 255 = 2 ^ 8 - 1 from rfl, Nat.and_two_pow_sub_one_eq_mod, Nat.mod_mod]
  simp only [sha256Bytes, beBytes, leBytes, List.range_succ, List.range_zero, List.nil_append, List.cons_append, List.map_cons,
    List.map_nil, List.reverse_cons, List.reverse_nil, List.cons.injEq, and_true]
  refine ⟨?_, ?_, ?_, ?_⟩ <;> apply UInt8.toNat_inj.mp <;> simp [Nat.shiftRight_eq_div_pow, low]

theorem sha256PutLength_eq (data : List UInt8) (bitlen : UInt64) :
    sha256PutLength data bitlen = store data 56 (beBytes 8 bitlen.toNat) := by
  rw [sha256PutLength]
  congr 1
  simp only [beBytes, leBytes, List.range_succ, List.range_zero, List.nil_append, List.cons_append, List.map_cons, List.map_nil,
    List.reverse_cons, List.reverse_nil, List.cons.injEq, and_true]
  refine ⟨?_, ?_, ?_, ?_, ?_, ?_, ?_, ?_⟩ <;> apply UInt8.toNat_inj.mp <;> simp [Nat.shiftRight_eq_div_pow]

end Words

section Transform

open Sha256

/-- The array is filled with the words of the schedule. -/
theorem sha256Extend_iterate {block : List UInt8} (size : block.length = 64) (count : Nat) :
    sha256Extend^[count] ((List.range 16).map fun i => sha256Word block (4 * i)) =
      (List.range (16 + count)).map (Fips.schedule block) := by
  induction count with
  | zero =>
    apply List.map_congr_left
    intro i member
    have inside := List.mem_range.mp member
    rw [sha256Word_eq (by omega), Fips.schedule, if_pos inside]
  | succ count ih =>
    rw [Function.iterate_succ_apply', ih, sha256Extend, ← Nat.add_assoc, List.range_succ, List.map_append, List.map_singleton]
    congr 2
    have earlier : ∀ back, 0 < back → back ≤ 16 →
        ((List.range (16 + count)).map (Fips.schedule block)).getD (16 + count - back) 0 =
          Fips.schedule block (16 + count - back) := by
      intro back positive short
      simp only [List.getD_eq_getElem?_getD, List.getElem?_map, List.getElem?_range (show 16 + count - back < 16 + count by omega),
        Option.map_some, Option.getD_some]
    rw [Fips.schedule, if_neg (by omega), List.length_map, List.length_range, earlier 2 (by decide) (by decide),
      earlier 7 (by decide) (by decide), earlier 15 (by decide) (by decide), earlier 16 (by decide) (by decide), sig0_eq, sig1_eq]

theorem sha256Transform_eq (ctx : Sha256Ctx) {block : List UInt8} (size : block.length = 64) :
    sha256Transform ctx block = { ctx with state := Fips.compress ctx.state block } := by
  have rows : Sha256.k.zip (sha256Schedule block) = (List.range 64).map fun t => (Fips.k t, Fips.schedule block t) := by
    have table : Sha256.k = (List.range 64).map Fips.k := by decide
    rw [sha256Schedule, sha256Extend_iterate size, table, List.zip_map']
  have round : ∀ w t, sha256Round w (Fips.k t) (Fips.schedule block t) = Fips.step block w t := by
    intro w t
    simp only [sha256Round, Fips.step, ep0_eq, ep1_eq]
    rfl
  simp only [sha256Transform, rows, List.foldl_map, round, Fips.compress]

end Transform

section Streaming

/-- What of a message is not in the state yet is in front of the buffer, and
the bits of both are counted. -/
structure Sha256Ctx.Took (ctx : Sha256Ctx) (message : List UInt8) : Prop where
  size : ctx.data.length = 64
  short : ctx.datalen.toNat < 64
  absorbed : (⟨ctx.state, ctx.data.take ctx.datalen.toNat⟩ : Absorber Sha256Words UInt8) =
    message.foldl (Absorber.push Fips.compress 64) ⟨Fips.initial, []⟩
  bits : (ctx.bitlen.toNat + 8 * ctx.datalen.toNat) % 2 ^ 64 = 8 * message.length % 2 ^ 64

theorem sha256Init_took {ctx : Sha256Ctx} (size : ctx.data.length = 64) : (sha256Init ctx).Took [] :=
  ⟨size, show (0 : UInt32).toNat < 64 by decide, by simp [sha256Init, Fips.initial], rfl⟩

theorem Sha256Ctx.Took.take {ctx : Sha256Ctx} (took : ctx.Took message) (byte : UInt8) :
    (sha256Take ctx byte).Took (message ++ [byte]) := by
  have size := took.size
  have short := took.short
  have bits := took.bits
  have count : (ctx.datalen + 1).toNat = ctx.datalen.toNat + 1 := by
    rw [UInt32.toNat_add]
    exact Nat.mod_eq_of_lt (by simp; omega)
  have pending : (ctx.data.take ctx.datalen.toNat).length = ctx.datalen.toNat := List.length_take_of_le (by omega)
  have longer : (ctx.data.set ctx.datalen.toNat byte).take (ctx.datalen.toNat + 1) = ctx.data.take ctx.datalen.toNat ++ [byte] := by
    rw [List.take_add_one, List.take_set_of_le (Nat.le_refl _), List.getElem?_set_self (by omega)]
    rfl
  have full_iff : ctx.datalen + 1 = 64 ↔ ctx.datalen.toNat + 1 = 64 := by
    rw [← UInt32.toNat_inj, count]
    rfl
  simp only [sha256Take, full_iff]
  split
  · rename_i full
    have block : (ctx.data.set ctx.datalen.toNat byte).length = 64 := by rw [List.length_set, size]
    have whole : ctx.data.take ctx.datalen.toNat ++ [byte] = ctx.data.set ctx.datalen.toNat byte := by
      rw [← longer, full, ← block, List.take_length]
    rw [sha256Transform_eq _ block]
    refine ⟨block, show (0 : UInt32).toNat < 64 by decide, ?_, ?_⟩
    · rw [List.foldl_append, ← took.absorbed, List.foldl_cons, List.foldl_nil, Absorber.push, if_pos (by rw [pending, full]), whole]
      rfl
    · simp only [UInt64.toNat_add, List.length_append, List.length_singleton]
      change ((ctx.bitlen.toNat + 512) % 2 ^ 64 + 8 * 0) % 2 ^ 64 = _
      omega
  · rename_i more
    refine ⟨by rw [List.length_set, size], by rw [count]; omega, ?_, ?_⟩
    · rw [List.foldl_append, ← took.absorbed, List.foldl_cons, List.foldl_nil, Absorber.push, if_neg (by rw [pending]; exact more),
        count, longer]
    · change (ctx.bitlen.toNat + 8 * (ctx.datalen + 1).toNat) % 2 ^ 64 = _
      rw [count, List.length_append, List.length_singleton]
      omega

theorem Sha256Ctx.Took.foldl {ctx : Sha256Ctx} (took : ctx.Took message) (data : List UInt8) :
    (data.foldl sha256Take ctx).Took (message ++ data) := by
  induction data generalizing ctx message with
  | nil => simpa using took
  | cons byte data ih => simpa using ih (took.take byte)

/-- From a counter that has not wrapped the loop takes the bytes that are left. -/
theorem sha256UpdateLoop_takes {data : List UInt8} (small : data.length < 2 ^ 32) :
    ∀ fuel (i : UInt32) (ctx : Sha256Ctx), i.toNat ≤ data.length → data.length < fuel + i.toNat →
      sha256UpdateLoop data fuel i ctx = .ok ((data.drop i.toNat).foldl sha256Take ctx) := by
  intro fuel
  induction fuel with
  | zero =>
    intro i ctx inside enough
    omega
  | succ fuel ih =>
    intro i ctx inside enough
    unfold sha256UpdateLoop
    by_cases ends : i.toNat = data.length
    · rw [List.getElem?_eq_none (by omega), ends, List.drop_length]
      rfl
    · have here : i.toNat < data.length := by omega
      have next : (i + 1).toNat = i.toNat + 1 := by
        rw [UInt32.toNat_add]
        exact Nat.mod_eq_of_lt (by simp; omega)
      rw [List.getElem?_eq_getElem here, List.drop_eq_getElem_cons here, List.foldl_cons]
      simp only
      rw [ih (i + 1) _ (by omega) (by omega), next]

/-- With 2^32 bytes or more the counter never reaches the length. -/
theorem sha256UpdateLoop_spins {data : List UInt8} (large : 2 ^ 32 ≤ data.length) :
    ∀ fuel (i : UInt32) (ctx : Sha256Ctx), sha256UpdateLoop data fuel i ctx = .error .fuel := by
  intro fuel
  induction fuel with
  | zero => exact fun _ _ => rfl
  | succ fuel ih =>
    intro i ctx
    have here : i.toNat < data.length := Nat.lt_of_lt_of_le i.toNat_lt large
    unfold sha256UpdateLoop
    rw [List.getElem?_eq_getElem here]
    exact ih _ _

end Streaming

section Final

/-- The padding of a message whose last bytes leave room for the length. -/
theorem Fips.blocks_one {message : List UInt8} (room : (leftover 64 message).length < 56) :
    Fips.blocks message = blocksOf 64 message ++ [leftover 64 message ++
      0x80 :: (List.replicate (55 - (leftover 64 message).length) 0 ++ beBytes 8 (8 * message.length))] := by
  have parts := blocksOf_flatten 64 message
  have uniform := blocksOf_uniform 64 message
  have size := congrArg List.length parts
  rw [List.length_append, uniform.length_flatten] at size
  have zeros : padZeros 64 8 message.length = 55 - (leftover 64 message).length := by
    unfold padZeros
    omega
  have text : strengthened 64 8 message = (blocksOf 64 message ++ [leftover 64 message ++
      0x80 :: (List.replicate (55 - (leftover 64 message).length) 0 ++ beBytes 8 (8 * message.length))]).flatten ++ [] := by
    rw [strengthened, zeros, List.flatten_append, List.flatten_singleton, List.append_nil, ← List.append_assoc, parts]
  rw [Fips.blocks, text, Uniform.blocksOf_eq _ (by decide)]
  intro block member
  rcases List.mem_append.mp member with whole | last
  · exact uniform block whole
  · rw [List.mem_singleton.mp last]
    simp only [List.length_append, List.length_cons, List.length_replicate, beBytes_length]
    omega

/-- The padding of one whose last bytes do not. -/
theorem Fips.blocks_two {message : List UInt8} (full : 56 ≤ (leftover 64 message).length) :
    Fips.blocks message = blocksOf 64 message ++
      [leftover 64 message ++ 0x80 :: List.replicate (63 - (leftover 64 message).length) 0,
        List.replicate 56 0 ++ beBytes 8 (8 * message.length)] := by
  have parts := blocksOf_flatten 64 message
  have uniform := blocksOf_uniform 64 message
  have short := leftover_length (show 0 < 64 by decide) message
  have size := congrArg List.length parts
  rw [List.length_append, uniform.length_flatten] at size
  have zeros : padZeros 64 8 message.length = 63 - (leftover 64 message).length + 56 := by
    unfold padZeros
    omega
  have text : strengthened 64 8 message = (blocksOf 64 message ++
      [leftover 64 message ++ 0x80 :: List.replicate (63 - (leftover 64 message).length) 0,
        List.replicate 56 0 ++ beBytes 8 (8 * message.length)]).flatten ++ [] := by
    rw [strengthened, zeros, List.replicate_add, List.flatten_append, List.flatten_cons, List.flatten_singleton, List.append_nil]
    simp only [List.append_assoc, List.cons_append]
    rw [← List.append_assoc (blocksOf 64 message).flatten, parts]
  rw [Fips.blocks, text, Uniform.blocksOf_eq _ (by decide)]
  intro block member
  rcases List.mem_append.mp member with whole | last
  · exact uniform block whole
  · simp only [List.mem_cons, List.not_mem_nil, or_false] at last
    rcases last with rfl | rfl
    · simp only [List.length_append, List.length_cons, List.length_replicate]
      omega
    · simp

theorem sha256Hash_eq (s : Sha256Words) : sha256Hash s = Fips.bytes s := by
  rw [sha256Hash, Fips.bytes, funext sha256Bytes_eq]

/-- Two parts stored one behind the other, the second to the end. -/
private theorem store_store {data : List UInt8} (size : data.length = 64) (start : Nat) (part last : List UInt8)
    (middle : start + part.length = 56) (ends : last.length = 8) :
    store (store data start part) 56 last = data.take start ++ part ++ last := by
  rw [← middle, store, take_store (by omega), ← List.drop_drop, drop_store (by omega), List.drop_drop,
    List.drop_eq_nil_of_le (by omega), List.append_nil]

/-- Whatever the buffer held, the last blocks are those of the padded message. -/
theorem Sha256Ctx.Took.final {ctx : Sha256Ctx} (took : ctx.Took message) : (sha256Final ctx).1 = Fips.sha256 message := by
  have size := took.size
  have short := took.short
  have absorbed := took.absorbed
  rw [Absorber.foldl_push _ _ _ (by decide), List.nil_append, Absorber.mk.injEq] at absorbed
  obtain ⟨state, pending⟩ := absorbed
  have length : (leftover 64 message).length = ctx.datalen.toNat := by
    rw [← pending]
    exact List.length_take_of_le (by omega)
  have eight : (ctx.datalen * 8).toUInt64.toNat = 8 * ctx.datalen.toNat := by
    rw [UInt32.toNat_toUInt64, UInt32.toNat_mul]
    change ctx.datalen.toNat * 8 % 2 ^ 32 = _
    omega
  have bits : beBytes 8 (ctx.bitlen + (ctx.datalen * 8).toUInt64).toNat = beBytes 8 (8 * message.length) := by
    rw [UInt64.toNat_add, eight, took.bits]
    exact beBytes_mod 8 _
  by_cases room : ctx.datalen.toNat < 56
  · have padded : sha256Pad ctx =
        { ctx with data := store ctx.data ctx.datalen.toNat (0x80 :: List.replicate (56 - (ctx.datalen.toNat + 1)) 0) } :=
      if_pos (UInt32.lt_iff_toNat_lt.mpr room)
    have block := store_store size ctx.datalen.toNat (0x80 :: List.replicate (56 - (ctx.datalen.toNat + 1)) 0) _
      (by simp only [List.length_cons, List.length_replicate]; omega) (beBytes_length 8 (8 * message.length))
    have whole : (ctx.data.take ctx.datalen.toNat ++ 0x80 :: List.replicate (56 - (ctx.datalen.toNat + 1)) 0 ++
        beBytes 8 (8 * message.length)).length = 64 := by
      simp only [List.length_append, List.length_cons, List.length_replicate, beBytes_length, List.length_take]
      omega
    simp only [sha256Final, padded, sha256PutLength_eq, bits, block, sha256Transform_eq _ whole]
    rw [sha256Hash_eq, Fips.sha256, Fips.blocks_one (by omega), List.foldl_append, ← state, length, ← pending,
      show 56 - (ctx.datalen.toNat + 1) = 55 - ctx.datalen.toNat by omega, List.append_assoc]
    rfl
  · have first : store ctx.data ctx.datalen.toNat (0x80 :: List.replicate (64 - (ctx.datalen.toNat + 1)) 0) =
        ctx.data.take ctx.datalen.toNat ++ 0x80 :: List.replicate (63 - ctx.datalen.toNat) 0 := by
      rw [store, show 64 - (ctx.datalen.toNat + 1) = 63 - ctx.datalen.toNat by omega, List.drop_eq_nil_of_le, List.append_nil]
      simp only [List.length_cons, List.length_replicate]
      omega
    have whole : (ctx.data.take ctx.datalen.toNat ++ 0x80 :: List.replicate (63 - ctx.datalen.toNat) 0).length = 64 := by
      simp only [List.length_append, List.length_cons, List.length_replicate, List.length_take]
      omega
    have padded : sha256Pad ctx =
        { ctx with
          data := store (ctx.data.take ctx.datalen.toNat ++ 0x80 :: List.replicate (63 - ctx.datalen.toNat) 0) 0 (List.replicate 56 0)
          state := Fips.compress ctx.state
            (ctx.data.take ctx.datalen.toNat ++ 0x80 :: List.replicate (63 - ctx.datalen.toNat) 0) } := by
      refine (if_neg (mt UInt32.lt_iff_toNat_lt.mp room)).trans ?_
      simp only [first, sha256Transform_eq _ whole]
    have block := store_store whole 0 (List.replicate 56 0) _ (by simp) (beBytes_length 8 (8 * message.length))
    have second : (List.replicate 56 0 ++ beBytes 8 (8 * message.length)).length = 64 := by simp
    rw [List.take_zero, List.nil_append] at block
    simp only [sha256Final, padded, sha256PutLength_eq, bits, block, sha256Transform_eq _ second]
    rw [sha256Hash_eq, Fips.sha256, Fips.blocks_two (by omega), List.foldl_append, ← state, length, ← pending]
    rfl

end Final

section Run

theorem sha256Update_mono (data : List UInt8) (ctx : Sha256Ctx) : FuelMono fun fuel => sha256Update fuel ctx data := by
  have step : ∀ fuel i ctx, Below (sha256UpdateLoop data fuel i ctx) (sha256UpdateLoop data (fuel + 1) i ctx) := by
    intro fuel
    induction fuel with
    | zero => exact fun _ _ settled => absurd rfl settled
    | succ fuel ih =>
      intro i ctx
      cases listed : data[i.toNat]? with
      | none =>
        simp only [sha256UpdateLoop, listed]
        exact .refl _
      | some byte =>
        rw [sha256UpdateLoop, sha256UpdateLoop, listed]
        exact ih _ _
  exact fun fuel => step fuel 0 ctx

theorem sha256Update_takes {data : List UInt8} (small : data.length < 2 ^ 32) (enough : data.length < fuel) (ctx : Sha256Ctx) :
    sha256Update fuel ctx data = .ok (data.foldl sha256Take ctx) := by
  have taken := sha256UpdateLoop_takes small fuel 0 ctx (Nat.zero_le _) (by simpa using enough)
  simpa [sha256Update] using taken

/-- An update that returns was given less than 2^32 bytes, and has taken them all. -/
theorem sha256Update_eq_ok {data : List UInt8} {ctx next : Sha256Ctx} (returned : sha256Update fuel ctx data = .ok next) :
    data.length < 2 ^ 32 ∧ next = data.foldl sha256Take ctx := by
  by_cases small : data.length < 2 ^ 32
  · have taken := sha256Update_takes small (Nat.lt_succ_self _) ctx
    have agree : sha256Update fuel ctx data = sha256Update (data.length + 1) ctx data :=
      (sha256Update_mono data ctx).agree (by simp [returned]) (by rw [taken]; exact settled_ok _)
    rw [returned, taken, Except.ok.injEq] at agree
    exact ⟨small, agree⟩
  · rw [sha256Update, sha256UpdateLoop_spins (Nat.le_of_not_lt small)] at returned
    cases returned

theorem sha256Updates_eq_ok {pieces : List (List UInt8)} {next : Sha256Ctx} :
    ∀ {ctx : Sha256Ctx}, pieces.foldlM (sha256Update fuel) ctx = .ok next →
      (∀ piece ∈ pieces, piece.length < 2 ^ 32) ∧ next = pieces.flatten.foldl sha256Take ctx := by
  induction pieces with
  | nil =>
    intro ctx returned
    cases returned
    exact ⟨fun _ member => absurd member (by simp), rfl⟩
  | cons piece pieces ih =>
    intro ctx returned
    rw [List.foldlM_cons] at returned
    obtain ⟨middle, first, rest⟩ := bind_eq_ok.mp returned
    obtain ⟨small, rfl⟩ := sha256Update_eq_ok first
    obtain ⟨smaller, rfl⟩ := ih rest
    refine ⟨fun other member => ?_, by rw [List.flatten_cons, List.foldl_append]⟩
    rcases List.mem_cons.mp member with rfl | later
    · exact small
    · exact smaller other later

theorem sha256Updates_takes {pieces : List (List UInt8)} (small : ∀ piece ∈ pieces, piece.length < 2 ^ 32) :
    ∀ (ctx : Sha256Ctx) fuel, pieces.flatten.length < fuel →
      pieces.foldlM (sha256Update fuel) ctx = .ok (pieces.flatten.foldl sha256Take ctx) := by
  induction pieces with
  | nil => exact fun _ _ _ => rfl
  | cons piece pieces ih =>
    intro ctx fuel enough
    rw [List.flatten_cons, List.length_append] at enough
    rw [List.foldlM_cons, sha256Update_takes (small piece (by simp)) (by omega), ok_bind,
      ih (fun other member => small other (List.mem_cons_of_mem _ member)) _ fuel (by omega), List.flatten_cons, List.foldl_append]

theorem sha256Run_eq_ok {n : Nat} {c : Sha256Ctx} {l : List (List UInt8)} {hash : List UInt8} (size : c.data.length = 64)
    (returned : sha256Run n c l = .ok hash) : (∀ piece ∈ l, piece.length < 2 ^ 32) ∧ hash = Fips.sha256 l.flatten := by
  obtain ⟨next, taken, done⟩ := bind_eq_ok.mp returned
  obtain ⟨small, rfl⟩ := sha256Updates_eq_ok taken
  cases done
  exact ⟨small, ((sha256Init_took size).foldl l.flatten).final⟩

theorem sha256Run_returns {c : Sha256Ctx} (size : c.data.length = 64) (pieces : List (List UInt8))
    (small : ∀ piece ∈ pieces, piece.length < 2 ^ 32) :
    sha256Run (pieces.flatten.length + 1) c pieces = .ok (Fips.sha256 pieces.flatten) := by
  have final := ((sha256Init_took size).foldl pieces.flatten).final
  rw [List.nil_append] at final
  rw [sha256Run, sha256Updates_takes small _ _ (Nat.lt_succ_self _), ok_bind, final]
  rfl

/-- However a message is cut and whatever is in the buffer before, the digest is
that of the whole message, and there is one unless a piece has 2^32 bytes. -/
theorem sha256Run_digest (ctx : Sha256Ctx) (size : ctx.data.length = 64) (pieces : List (List UInt8)) (hash : List UInt8) :
    (∃ fuel, sha256Run fuel ctx pieces = .ok hash) ↔
      (∀ piece ∈ pieces, piece.length < 2 ^ 32) ∧ hash = Fips.sha256 pieces.flatten := by
  constructor
  · rintro ⟨fuel, returned⟩
    exact sha256Run_eq_ok size returned
  · rintro ⟨small, rfl⟩
    exact ⟨_, sha256Run_returns size pieces small⟩

/-- The digest of "abc", which two of three pieces make up. -/
theorem sha256Run_digest_abc : Fips.sha256 (cstr "abc") = [
    0xba, 0x78, 0x16, 0xbf, 0x8f, 0x01, 0xcf, 0xea, 0x41, 0x41, 0x40, 0xde, 0x5d, 0xae, 0x22, 0x23,
    0xb0, 0x03, 0x61, 0xa3, 0x96, 0x17, 0x7a, 0x9c, 0xb4, 0x10, 0xff, 0x61, 0xf2, 0x00, 0x15, 0xad] :=
  ((sha256Run_digest ⟨List.replicate 64 0xaa, 7, 9, Fips.initial⟩ rfl [cstr "ab", [], cstr "c"] _).mp
    ⟨3, by decide +kernel⟩).2.symm

end Run

section Collisions

@[simp] theorem Fips.bytes_length (s : Sha256Words) : (Fips.bytes s).length = 32 := by simp [Fips.bytes]

/-- The bytes of the eight words tell the words. -/
theorem Fips.bytes_injective {s t : Sha256Words} (same : Fips.bytes s = Fips.bytes t) : s = t := by
  have word : ∀ {x y : UInt32}, beBytes 4 x.toNat = beBytes 4 y.toNat → x = y := by
    intro x y equal
    exact UInt32.toNat_inj.mp (beBytes_injective x.toNat_lt y.toNat_lt equal)
  simp only [Fips.bytes, List.flatMap_cons, List.flatMap_nil, List.append_nil] at same
  obtain ⟨a, same⟩ := List.append_inj same (by simp)
  obtain ⟨b, same⟩ := List.append_inj same (by simp)
  obtain ⟨c, same⟩ := List.append_inj same (by simp)
  obtain ⟨d, same⟩ := List.append_inj same (by simp)
  obtain ⟨e, same⟩ := List.append_inj same (by simp)
  obtain ⟨f, same⟩ := List.append_inj same (by simp)
  obtain ⟨g, h⟩ := List.append_inj same (by simp)
  cases s
  cases t
  simp only [Sha256Words.mk.injEq]
  exact ⟨word a, word b, word c, word d, word e, word f, word g, word h⟩

/-- What `sha256_transform` makes of a state and a block. -/
def transformed (s : Sha256Words) (block : List UInt8) : Sha256Words := (sha256Transform ⟨block, 0, 0, s⟩ block).state

/-- Two states and blocks that one digest each passes through, and for which
`sha256_transform` leaves one state. -/
def TransformCollides (one two : List UInt8) : Prop :=
  ∃ here ∈ inputs transformed Fips.initial (Fips.blocks one), ∃ there ∈ inputs transformed Fips.initial (Fips.blocks two),
    Collide transformed here there

theorem sha256_collides {one two : List UInt8} (small : one.length < 2 ^ 61) (short : two.length < 2 ^ 61) (different : one ≠ two)
    (same : Fips.sha256 one = Fips.sha256 two) : TransformCollides one two := by
  have agree : ∀ message s, (Fips.blocks message).foldl Fips.compress s = (Fips.blocks message).foldl transformed s := by
    intro message s
    have whole : ∀ block ∈ Fips.blocks message, ∀ s, Fips.compress s block = transformed s block := by
      intro block member s
      rw [transformed, sha256Transform_eq _ (blocksOf_uniform 64 _ block member)]
    exact List.foldl_ext _ _ _ fun s block member => whole block member s
  have states := Fips.bytes_injective same
  rw [agree, agree] at states
  exact strengthened_collide (by decide) transformed Fips.initial (by simp only [Nat.reducePow]; omega)
    (by simp only [Nat.reducePow]; omega) different states

/-- Two runs over different messages that write one digest have met a collision of
`sha256_transform`. -/
theorem sha256Run_collides {one two : Sha256Ctx} (size : one.data.length = 64) (size' : two.data.length = 64)
    {pieces others : List (List UInt8)} {hash : List UInt8} (first : sha256Run fuel one pieces = .ok hash)
    (second : sha256Run steps two others = .ok hash) (small : pieces.flatten.length < 2 ^ 61) (short : others.flatten.length < 2 ^ 61)
    (different : pieces.flatten ≠ others.flatten) : TransformCollides pieces.flatten others.flatten := by
  obtain ⟨_, digest⟩ := sha256Run_eq_ok size first
  obtain ⟨_, digest'⟩ := sha256Run_eq_ok size' second
  exact sha256_collides small short different (digest.symm.trans digest')

@[simp] theorem Fips.sha256_length (message : List UInt8) : (Fips.sha256 message).length = 32 := Fips.bytes_length _

/-- There are more messages of 33 bytes than digests. -/
theorem exists_sha256_eq : ∃ one two : List UInt8, one.length = 33 ∧ two.length = 33 ∧ one ≠ two ∧ Fips.sha256 one = Fips.sha256 two := by
  let digest : List.Vector (Fin 256) 33 → List.Vector (Fin 256) 32 := fun message =>
    ⟨(Fips.sha256 (message.toList.map fun n : Fin 256 => UInt8.ofNat n)).map fun byte => ⟨byte.toNat, byte.toNat_lt⟩, by simp⟩
  have exact_ : Function.Injective fun n : Fin 256 => UInt8.ofNat n := by
    intro a b same
    have values := congrArg UInt8.toNat same
    simp only [UInt8.toNat_ofNat'] at values
    omega
  have values : Function.Injective fun byte : UInt8 => (⟨byte.toNat, byte.toNat_lt⟩ : Fin 256) := by
    intro a b same
    exact UInt8.toNat_inj.mp (Fin.mk.inj same)
  obtain ⟨one, two, different, same⟩ := Fintype.exists_ne_map_eq_of_card_lt digest (by simp [card_vector])
  refine ⟨_, _, ?_, ?_, ?_, List.map_injective_iff.mpr values (congrArg List.Vector.toList same)⟩
  · simp
  · simp
  · intro equal
    exact different (List.Vector.toList_injective (List.map_injective_iff.mpr exact_ equal))

/-- So `sha256_transform` has collisions. -/
theorem sha256Run_collides_some : ∃ one two, TransformCollides one two := by
  obtain ⟨one, two, length, length', different, same⟩ := exists_sha256_eq
  have size : (Sha256Ctx.mk (List.replicate 64 0) 0 0 Fips.initial).data.length = 64 := rfl
  have first := sha256Run_returns size [one] (by simp [length])
  have second := sha256Run_returns size [two] (by simp [length'])
  have equal : Fips.sha256 [one].flatten = Fips.sha256 [two].flatten := by simpa using same
  exact ⟨_, _, sha256Run_collides size size first (equal ▸ second) (by simp [length]) (by simp [length']) (by simpa using different)⟩

end Collisions

end LexiDB
