import LexiDB.Object

/-! The wire encoder of builder.c. A builder is a vstr; every function returns
the source's result code with the builder it leaves behind. -/

namespace LexiDB

open Lib

abbrev Builder := Vstr

section

variable (mem : Mem)

def stringTypeByte : UInt8 := ascii '$'
def arrayTypeByte : UInt8 := ascii '*'
def intTypeByte : UInt8 := ascii ':'
def doubleTypeByte : UInt8 := ascii ','
def simpleErrTypeByte : UInt8 := ascii '-'
def booleanTypeByte : UInt8 := ascii '#'
def htTypeByte : UInt8 := ascii '%'

def builderNew : Builder := vstrNew

def builderOut (b : Builder) : List UInt8 := vstrData b

def builderLen (b : Builder) : Nat := vstrLen b

def builderAddOk (b : Builder) : Int × Builder := vstrPushStringLen mem b (cstr "+OK\r\n")

def builderAddPing (b : Builder) : Int × Builder := vstrPushStringLen mem b (cstr "+PING\r\n")

def builderAddPong (b : Builder) : Int × Builder := vstrPushStringLen mem b (cstr "+PONG\r\n")

def builderAddNone (b : Builder) : Int × Builder := vstrPushStringLen mem b (cstr "+NONE\r\n")

def builderAddEnd (b : Builder) : Int × Builder :=
  let (res, b) := vstrPushChar mem b (ascii '\r')
  if res = -1 then (-1, b) else vstrPushChar mem b (ascii '\n')

/-- A type byte, a text, and the line end: the shape `builder_add_array`,
`builder_add_err`, `builder_add_int`, `builder_add_double` and `builder_add_ht`
share. -/
def builderAddLine (b : Builder) (type : UInt8) (text : List UInt8) : Int × Builder :=
  let (res, b) := vstrPushChar mem b type
  if res = -1 then (-1, b)
  else
    let (res, b) := vstrPushStringLen mem b text
    if res = -1 then (-1, b) else builderAddEnd mem b

def builderAddArray (b : Builder) (arrLen : Nat) : Except Halt (Int × Builder) := do
  let lenVstr ← vstrFormat mem (decimal arrLen)
  return builderAddLine mem b arrayTypeByte lenVstr.bytes

def builderAddErr (b : Builder) (str : List UInt8) : Int × Builder :=
  builderAddLine mem b simpleErrTypeByte str

def builderAddString (b : Builder) (str : List UInt8) : Except Halt (Int × Builder) := do
  let (res, b) := vstrPushChar mem b stringTypeByte
  if res = -1 then return (-1, b)
  let lenVstr ← vstrFormat mem (decimal str.length)
  let (res, b) := vstrPushStringLen mem b lenVstr.bytes
  if res = -1 then return (-1, b)
  let (res, b) := builderAddEnd mem b
  if res = -1 then return (-1, b)
  let (res, b) := vstrPushStringLen mem b str
  if res = -1 then return (-1, b)
  return builderAddEnd mem b

def builderAddInt (b : Builder) (val : Int64) : Except Halt (Int × Builder) := do
  let intStr ← vstrFormat mem (signedDecimal val.toInt)
  return builderAddLine mem b intTypeByte intStr.bytes

def builderAddBoolean (b : Builder) (boolean : Int32) : Int × Builder :=
  let (res, b) := vstrPushChar mem b booleanTypeByte
  if res = -1 then (-1, b)
  else
    let (res, b) := vstrPushChar mem b (if boolean ≠ 0 then ascii 't' else ascii 'f')
    if res = -1 then (-1, b) else builderAddEnd mem b

def builderAddDouble (env : Env) (b : Builder) (val : UInt64) : Except Halt (Int × Builder) := do
  let tmp ← vstrFormat mem (env.formatDouble val)
  return builderAddLine mem b doubleTypeByte tmp.bytes

def builderAddHt (b : Builder) (len : Nat) : Except Halt (Int × Builder) := do
  let lenStr ← vstrFormat mem (decimal len)
  return builderAddLine mem b htTypeByte lenStr.bytes

mutual

/-- `builder_add_object`. Fuel bounds the depth of the recursion and the rounds
of its two loops. -/
def builderAddObject (env : Env) : Nat → Builder → Object → Except Halt (Int × Builder)
  | 0, _, _ => .error .fuel
  | fuel + 1, b, obj =>
    match obj with
    | .null => .ok (builderAddNone mem b)
    | .int num => builderAddInt mem b num
    | .double dbl => builderAddDouble mem env b dbl
    | .bool boolean => .ok (builderAddBoolean mem b boolean)
    | .string s => builderAddString mem b s.bytes
    | .array vec => do
      let iter := vecIterNew vec
      let (addRes, b) ← builderAddArray mem b vec.len
      if addRes = -1 then return (-1, b)
      builderAddElems env fuel b vec.slots iter
    | .ht ht => do
      let iter := htIterNew ht
      let (addRes, b) ← builderAddHt mem b ht.numEntries
      if addRes = -1 then return (-1, b)
      builderAddPairs env fuel b iter

/-- The loop over an array. Reading a slot past the allocation is out of bounds. -/
def builderAddElems (env : Env) : Nat → Builder → List Object → VecIter → Except Halt (Int × Builder)
  | 0, _, _, _ => .error .fuel
  | fuel + 1, b, slots, iter =>
    match iter.cur with
    | none => .ok (0, b)
    | some i =>
      match slots[i]? with
      | none => .error .bounds
      | some cur => do
        let (addRes, b) ← builderAddObject env fuel b cur
        if addRes = -1 then return (-1, b)
        builderAddElems env fuel b slots (vecIterNext iter)

/-- The loop over a map, which never calls `ht_iter_next`: it goes round with
the same `iter.cur`. -/
def builderAddPairs (env : Env) : Nat → Builder → HtIter Object Object → Except Halt (Int × Builder)
  | 0, _, _ => .error .fuel
  | fuel + 1, b, iter =>
    match iter.cur with
    | [] => .ok (0, b)
    | cur :: _ => do
      let (addRes, b) ← builderAddObject env fuel b cur.key
      if addRes = -1 then return (-1, b)
      let (addRes, b) ← builderAddObject env fuel b cur.value
      if addRes = -1 then return (-1, b)
      builderAddPairs env fuel b iter

end

def builderReset (b : Builder) : Builder := vstrReset b

def builderFree (b : Builder) : Builder := vstrFree b

end

end LexiDB
