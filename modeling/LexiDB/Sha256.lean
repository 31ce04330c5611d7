import LexiDB.Lib.Exec
import LexiDB.Lib.Blocks
import LexiDB.Lib.Bytes

/-! The digest of sha256.c, with its context of a buffered block and a bit count. -/

namespace LexiDB

open Lib

/-- `SHA256_BLOCK_SIZE`: what a digest is long. -/
def sha256BlockSize : Nat := 32

/-- `state[0]` to `state[7]`, and the variables `a` to `h` of `sha256_transform`. -/
structure Sha256Words where
  a : UInt32
  b : UInt32
  c : UInt32
  d : UInt32
  e : UInt32
  f : UInt32
  g : UInt32
  h : UInt32
  deriving DecidableEq, Repr

/-- `SHA256_CTX`. The 64 bytes of `data` are whatever was in the memory until they
are written. -/
structure Sha256Ctx where
  data : List UInt8
  datalen : UInt32
  bitlen : UInt64
  state : Sha256Words

namespace Sha256

def rotRight (a b : UInt32) : UInt32 := (a >>> b) ||| (a <<< (32 - b))

def ch (x y z : UInt32) : UInt32 := (x &&& y) ^^^ (~~~x &&& z)

def maj (x y z : UInt32) : UInt32 := (x &&& y) ^^^ (x &&& z) ^^^ (y &&& z)

def ep0 (x : UInt32) : UInt32 := rotRight x 2 ^^^ rotRight x 13 ^^^ rotRight x 22

def ep1 (x : UInt32) : UInt32 := rotRight x 6 ^^^ rotRight x 11 ^^^ rotRight x 25

def sig0 (x : UInt32) : UInt32 := rotRight x 7 ^^^ rotRight x 18 ^^^ (x >>> 3)

def sig1 (x : UInt32) : UInt32 := rotRight x 17 ^^^ rotRight x 19 ^^^ (x >>> 10)

end Sha256

/-- The table `k`. -/
def Sha256.k : List UInt32 := [
  0x428a2f98, 0x71374491, 0xb5c0fbcf, 0xe9b5dba5, 0x3956c25b, 0x59f111f1, 0x923f82a4, 0xab1c5ed5,
  0xd807aa98, 0x12835b01, 0x243185be, 0x550c7dc3, 0x72be5d74, 0x80deb1fe, 0x9bdc06a7, 0xc19bf174,
  0xe49b69c1, 0xefbe4786, 0x0fc19dc6, 0x240ca1cc, 0x2de92c6f, 0x4a7484aa, 0x5cb0a9dc, 0x76f988da,
  0x983e5152, 0xa831c66d, 0xb00327c8, 0xbf597fc7, 0xc6e00bf3, 0xd5a79147, 0x06ca6351, 0x14292967,
  0x27b70a85, 0x2e1b2138, 0x4d2c6dfc, 0x53380d13, 0x650a7354, 0x766a0abb, 0x81c2c92e, 0x92722c85,
  0xa2bfe8a1, 0xa81a664b, 0xc24b8b70, 0xc76c51a3, 0xd192e819, 0xd6990624, 0xf40e3585, 0x106aa070,
  0x19a4c116, 0x1e376c08, 0x2748774c, 0x34b0bcb5, 0x391c0cb3, 0x4ed8aa4a, 0x5b9cca4f, 0x682e6ff3,
  0x748f82ee, 0x78a5636f, 0x84c87814, 0x8cc70208, 0x90befffa, 0xa4506ceb, 0xbef9a3f7, 0xc67178f2]

section Transform

open Sha256

/-- `m[i]` of the first loop, which reads four bytes from `j` on. -/
def sha256Word (data : List UInt8) (j : Nat) : UInt32 :=
  ((data.getD j 0).toUInt32 <<< 24) ||| ((data.getD (j + 1) 0).toUInt32 <<< 16) |||
    ((data.getD (j + 2) 0).toUInt32 <<< 8) ||| (data.getD (j + 3) 0).toUInt32

/-- One round of the second loop: the next word behind those there are. -/
def sha256Extend (m : List UInt32) : List UInt32 :=
  let i := m.length
  m ++ [sig1 (m.getD (i - 2) 0) + m.getD (i - 7) 0 + sig0 (m.getD (i - 15) 0) + m.getD (i - 16) 0]

/-- The array `m`, filled by both loops. -/
def sha256Schedule (data : List UInt8) : List UInt32 :=
  (sha256Extend^[48]) ((List.range 16).map fun i => sha256Word data (4 * i))

/-- One round of the third loop, with `k[i]` and `m[i]`. -/
def sha256Round (w : Sha256Words) (ki mi : UInt32) : Sha256Words :=
  let t1 := w.h + ep1 w.e + ch w.e w.f w.g + ki + mi
  let t2 := ep0 w.a + maj w.a w.b w.c
  ⟨t1 + t2, w.a, w.b, w.c, w.d + t1, w.e, w.f, w.g⟩

/-- `ctx->state[0] += a;` and so on. -/
def Sha256Words.add (s w : Sha256Words) : Sha256Words :=
  ⟨s.a + w.a, s.b + w.b, s.c + w.c, s.d + w.d, s.e + w.e, s.f + w.f, s.g + w.g, s.h + w.h⟩

def sha256Transform (ctx : Sha256Ctx) (data : List UInt8) : Sha256Ctx :=
  let rounds := (Sha256.k.zip (sha256Schedule data)).foldl (fun w row => sha256Round w row.1 row.2) ctx.state
  { ctx with state := ctx.state.add rounds }

end Transform

def sha256Init (ctx : Sha256Ctx) : Sha256Ctx :=
  { ctx with
    datalen := 0
    bitlen := 0
    state := ⟨0x6a09e667, 0xbb67ae85, 0x3c6ef372, 0xa54ff53a, 0x510e527f, 0x9b05688c, 0x1f83d9ab, 0x5be0cd19⟩ }

section Update

/-- The body of the loop of `sha256_update`. -/
def sha256Take (ctx : Sha256Ctx) (byte : UInt8) : Sha256Ctx :=
  let ctx := { ctx with data := ctx.data.set ctx.datalen.toNat byte, datalen := ctx.datalen + 1 }
  if ctx.datalen = 64 then
    let ctx := sha256Transform ctx ctx.data
    { ctx with bitlen := ctx.bitlen + 512, datalen := 0 }
  else ctx

/-- The loop of `sha256_update`. Its counter has 32 bits, the length it is compared
with 64. -/
def sha256UpdateLoop (data : List UInt8) : Nat → UInt32 → Sha256Ctx → Except Halt Sha256Ctx
  | 0, _, _ => .error .fuel
  | fuel + 1, i, ctx =>
    match data[i.toNat]? with
    | none => .ok ctx
    | some byte => sha256UpdateLoop data fuel (i + 1) (sha256Take ctx byte)

def sha256Update (fuel : Nat) (ctx : Sha256Ctx) (data : List UInt8) : Except Halt Sha256Ctx :=
  sha256UpdateLoop data fuel 0 ctx

end Update

section Final

/-- The count of bits, in the last eight bytes of the block. -/
def sha256PutLength (data : List UInt8) (bitlen : UInt64) : List UInt8 :=
  store data 56 [(bitlen >>> 56).toUInt8, (bitlen >>> 48).toUInt8, (bitlen >>> 40).toUInt8, (bitlen >>> 32).toUInt8,
    (bitlen >>> 24).toUInt8, (bitlen >>> 16).toUInt8, (bitlen >>> 8).toUInt8, bitlen.toUInt8]

/-- The four bytes of a word as the last loop writes them. -/
def sha256Bytes (word : UInt32) : List UInt8 :=
  (List.range 4).map fun i => ((word >>> (24 - UInt32.ofNat i * 8)) &&& 0x000000ff).toUInt8

/-- `hash[0]` to `hash[31]`. -/
def sha256Hash (s : Sha256Words) : List UInt8 := [s.a, s.b, s.c, s.d, s.e, s.f, s.g, s.h].flatMap sha256Bytes

/-- The padding of what is left in the buffer. -/
def sha256Pad (ctx : Sha256Ctx) : Sha256Ctx :=
  let i := ctx.datalen.toNat
  if ctx.datalen < 56 then { ctx with data := store ctx.data i (0x80 :: List.replicate (56 - (i + 1)) 0) }
  else
    let ctx := { ctx with data := store ctx.data i (0x80 :: List.replicate (64 - (i + 1)) 0) }
    let ctx := sha256Transform ctx ctx.data
    { ctx with data := store ctx.data 0 (List.replicate 56 0) }

/-- What `sha256_final` writes to `hash`, and the context it leaves. -/
def sha256Final (ctx : Sha256Ctx) : List UInt8 × Sha256Ctx :=
  let ctx := sha256Pad ctx
  let ctx := { ctx with bitlen := ctx.bitlen + (ctx.datalen * 8).toUInt64 }
  let ctx := { ctx with data := sha256PutLength ctx.data ctx.bitlen }
  let ctx := sha256Transform ctx ctx.data
  (sha256Hash ctx.state, ctx)

end Final

/-- The calls a digest is computed with: `sha256_init`, `sha256_update` for each
piece, `sha256_final`. -/
def sha256Run (fuel : Nat) (ctx : Sha256Ctx) (pieces : List (List UInt8)) : Except Halt (List UInt8) := do
  let ctx ← pieces.foldlM (sha256Update fuel) (sha256Init ctx)
  return (sha256Final ctx).1

end LexiDB
