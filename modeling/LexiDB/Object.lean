import LexiDB.Vstr
import LexiDB.Vec
import LexiDB.Ht

/-! The tagged values of object.c. -/

namespace LexiDB

open Lib

/-- What the program takes from outside the modelled sources: the keyed hash,
the C library's number conversions, the digest of the user passwords, and the
address of the parser's comparison callback, which a map object stores. -/
structure Env where
  siphash : List UInt8 → List UInt8 → Nat
  strtold : List UInt8 → Int64
  strtod : List UInt8 → UInt64
  formatDouble : UInt64 → List UInt8
  sha256 : List UInt8 → List UInt8
  parserObjectCmp : Nat

/-- A concrete environment: `strtold` is exact on the numerals of int64 values,
the hash adds up the bytes. -/
def Env.sample : Env where
  siphash data _ := data.foldl (fun sum byte => sum + byte.toNat) 0
  strtold text := Int64.ofInt (signedValue text)
  strtod _ := 0
  formatDouble _ := cstr "0"
  sha256 text := (text ++ List.replicate 32 0).take 32
  parserObjectCmp := 0

/-- `object`. A double is its 64 bits; a vec or ht object owns its elements. -/
inductive Object where
  | null
  | int (num : Int64)
  | double (dbl : UInt64)
  | bool (boolean : Int32)
  | string (s : Vstr)
  | array (vec : Vec Object)
  | ht (ht : Ht Object Object)

/-- Zero-filled memory read as an object. -/
instance : Inhabited Object := ⟨.null⟩

/-- The `objectt` tag. -/
def Object.type : Object → Nat
  | .null => 0
  | .int _ => 1
  | .double _ => 2
  | .bool _ => 3
  | .string _ => 4
  | .array _ => 5
  | .ht _ => 6

/-- `sizeof(object)`: the tag, its padding, and the union, an `ht` wide. -/
def sizeofObject : Nat := 64

/-- The union member in memory order. -/
def Object.payload (env : Env) : Object → List UInt8
  | .null => []
  | .int num => leBytes 8 num.toUInt64.toNat
  | .double dbl => leBytes 8 dbl.toNat
  | .bool boolean => leBytes 4 boolean.toUInt32.toNat
  | .string s => s.raw
  | .array v => leBytes 8 v.address
  | .ht h =>
    leBytes 8 h.numEntries ++ leBytes 8 h.capacity ++ leBytes 8 sizeofObject ++
      leBytes 8 env.parserObjectCmp ++ h.seed ++ leBytes 8 h.table

/-- The bytes of the struct. Every object starts as `{0}`, so padding and the
part of the union behind the member are zero. -/
def Object.raw (env : Env) (obj : Object) : List UInt8 :=
  (leBytes 8 obj.type ++ obj.payload env ++ List.replicate sizeofObject 0).take sizeofObject

/-- The exponent field of an infinity or a NaN. -/
def doubleNotFinite (dbl : UInt64) : Bool := dbl.toNat / 2 ^ 52 % 2 ^ 11 = 2 ^ 11 - 1

/-- `object_cmp`. The Double and Bool cases read both operands from `a`; the
int64 difference is narrowed to the `int` it is returned as. `inf - inf` is a
NaN, which x86 converts to `INT_MIN`. -/
def objectCmp (a b : Object) : Int :=
  if a.type ≠ b.type then (a.type : Int) - b.type
  else
    match a, b with
    | .null, _ => 0
    | .int ai, .int bi => (ai - bi).toInt32.toInt
    | .double ad, _ => if doubleNotFinite ad then -2 ^ 31 else 0
    | .bool _, _ => 0
    | .string as, .string bs => vstrCmp as bs
    | _, _ => 1

/-- How every table of objects hashes and compares: `parser_object_cmp` and
`server_compare_objects` are both `object_cmp`. -/
def objectOps (env : Env) : KeyOps Object := ⟨env.siphash, Object.raw env, some objectCmp⟩

@[simp] theorem objectOps_compare (env : Env) (a b : Object) : (objectOps env).compare a b = objectCmp a b := rfl

@[simp] theorem objectOps_hash (env : Env) (seed : List UInt8) (key : Object) :
    (objectOps env).hash seed key = env.siphash (key.raw env) seed := rfl

/-- The value of a scalar object, as a user thinks of it: what the representation
chosen for a string and the bytes behind it do not change. -/
inductive Scalar where
  | int (num : Int64)
  | bool (boolean : Bool)
  | string (bytes : List UInt8)
  deriving DecidableEq, Repr

def Object.scalar : Object → Option Scalar
  | .int num => some (.int num)
  | .bool boolean => some (.bool (boolean ≠ 0))
  | .string s => some (.string s.bytes)
  | _ => none

end LexiDB
