import LexiDB.Builder

/-! The wire parser of parser.c, with every way it can fail to return: its
`while` loops and the recursion of `parse_object` run on fuel. -/

namespace LexiDB

open Lib

/-- `parser`; `rest` is the input from `pos` on. -/
structure Parser where
  ch : UInt8
  rest : List UInt8
  deriving DecidableEq, Repr

/-- What the allocator and `get_random_bytes` answer during one parse. A call is
told apart by the bytes unread when it is made and by an index: 0 for the object
being opened, 1 for a character pushed, the elements left for a `vec_push` or
`ht_insert`. -/
structure Supply where
  mem : Nat → Nat → Mem
  seed : Nat → List UInt8

/-- Every request is granted, each at its own address. -/
def Supply.granted (address : Nat → Nat → Nat) : Supply := ⟨fun unread i => .granted (address unread i), fun _ => []⟩

def Supply.Grants (supply : Supply) : Prop := ∀ unread i, (supply.mem unread i).Grants

theorem Supply.granted_grants (address : Nat → Nat → Nat) : (Supply.granted address).Grants :=
  fun _ _ => Mem.granted_grants _

def parserReadChar (p : Parser) : Parser :=
  match p.rest with
  | [] => ⟨0, []⟩
  | byte :: rest => ⟨byte, rest⟩

def parserNew (input : List UInt8) : Parser := parserReadChar ⟨0, input⟩

def peekByte (p : Parser) : UInt8 := p.rest.headD 0

/-- `expect_peek_byte`; the parser advanced, or `none` and the parser as it was. -/
def expectPeekByte (p : Parser) (byte : UInt8) : Option Parser :=
  if peekByte p = byte then some (parserReadChar p) else none

def expectPeekByteToBeNum (p : Parser) : Option Parser :=
  if isDigit (peekByte p) then some (parserReadChar p) else none

/-- `parse_len`, accumulating in a `uint64_t`. -/
def parseLen (fuel : Nat) (p : Parser) : Except Halt (Nat × Parser) :=
  whileFuel (fun state => isDigit state.2.ch) (fun state => (pushDigit state.1 state.2.ch % sizeMod, parserReadChar state.2))
    fuel (0, p)

/-- The length line of `$`, `*` and `%`, which four places spell out: the length,
or `none` where they return early, with the parser standing on the `\n`, or
wherever the failing check left it. -/
def parseHeader (fuel : Nat) (p : Parser) : Except Halt (Option Nat × Parser) :=
  match expectPeekByteToBeNum p with
  | none => .ok (none, p)
  | some p => do
    let (len, p) ← parseLen fuel p
    if p.ch ≠ ascii '\r' then return (none, p)
    match expectPeekByte p (ascii '\n') with
    | none => return (none, p)
    | some p => return (some len, p)

/-- One round of the loops that collect characters. The result of the push is
not looked at. -/
def parserPush (supply : Supply) (state : Vstr × Parser) : Vstr × Parser :=
  ((vstrPushChar (supply.mem state.2.rest.length 1) state.1 state.2.ch).2, parserReadChar state.2)

/-- The counted loop of `parse_string`. -/
def parserPushes (supply : Supply) : Nat → Vstr × Parser → Vstr × Parser
  | 0, state => state
  | i + 1, state => parserPushes supply i (parserPush supply state)

def parseString (supply : Supply) (p : Parser) (len : Nat) : Except Halt (Vstr × Parser) := do
  let s ← vstrNewLen (supply.mem p.rest.length 0) ((len + 1) % sizeMod)
  return parserPushes supply len (s, p)

/-- The condition `p->ch != '\r' && p->ch != 0`. -/
def lineByte (ch : UInt8) : Bool := ch ≠ ascii '\r' && ch ≠ 0

/-- The loop of `parse_double`, which does not stop at the end of the input. -/
def doubleByte (ch : UInt8) : Bool := ch ≠ ascii '\r'

def parserCollect (supply : Supply) (more : UInt8 → Bool) (fuel : Nat) (s : Vstr) (p : Parser) :
    Except Halt (Vstr × Parser) :=
  whileFuel (fun state => more state.2.ch) (parserPush supply) fuel (s, p)

/-- The loops of the other parsers that throw characters away. -/
def parserSkip (skipped : UInt8 → Bool) (fuel : Nat) (p : Parser) : Except Halt Parser :=
  whileFuel (fun p => skipped p.ch) parserReadChar fuel p

/-- What `parse_simple_string` and `parse_error` do with their fresh string. A
line without its end gives up the characters but not the bytes they left. -/
def parseLine (supply : Supply) (fuel : Nat) (s : Vstr) (p : Parser) : Except Halt (Vstr × Parser) := do
  let (s, p) ← parserCollect supply lineByte fuel s (parserReadChar p)
  if p.ch ≠ ascii '\r' then return (vstrFree s, p)
  match expectPeekByte p (ascii '\n') with
  | none => return (vstrFree s, p)
  | some p => return (s, p)

def parseSimpleString (supply : Supply) (fuel : Nat) (p : Parser) : Except Halt (Vstr × Parser) := do
  let s ← vstrNewLen (supply.mem p.rest.length 0) 5
  parseLine supply fuel s p

def parseError (supply : Supply) (fuel : Nat) (p : Parser) : Except Halt (Vstr × Parser) :=
  parseLine supply fuel vstrNew p

def parseInteger (env : Env) (supply : Supply) (fuel : Nat) (p : Parser) : Except Halt (Int64 × Parser) := do
  let (s, p) ← parserCollect supply lineByte fuel vstrNew (parserReadChar p)
  return (env.strtold (untilNul (vstrData s)), p)

def parseDouble (env : Env) (supply : Supply) (fuel : Nat) (p : Parser) : Except Halt (UInt64 × Parser) := do
  let (s, p) ← parserCollect supply doubleByte fuel vstrNew (parserReadChar p)
  return (env.strtod (untilNul (vstrData s)), p)

/-- The line end behind a string, an integer or a double: without it the value
is dropped. -/
def parserFinish (obj : Object) (p : Parser) : Object × Parser :=
  if p.ch ≠ ascii '\r' then (.null, p)
  else
    match expectPeekByte p (ascii '\n') with
    | none => (.null, p)
    | some p => (obj, parserReadChar p)

/-- The `#` branch of `parse_object`. -/
def parseBoolean (p : Parser) : Object × Parser :=
  let p := parserReadChar p
  if p.ch ≠ ascii 't' ∧ p.ch ≠ ascii 'f' then (.null, p)
  else
    match expectPeekByte p (ascii '\r') with
    | none => (.null, p)
    | some q =>
      match expectPeekByte q (ascii '\n') with
      | none => (.null, q)
      | some q => (.bool (if p.ch = ascii 't' then 1 else 0), parserReadChar q)

/-- The loop over the elements of an array; a failing `vec_push` goes unnoticed. -/
def parseElems (parse : Parser → Except Halt (Object × Parser)) (realloc : Nat → Option Nat) :
    Nat → Vec Object → Parser → Except Halt (Vec Object × Parser)
  | 0, vec, p => .ok (vec, p)
  | i + 1, vec, p => do
    let (cur, p) ← parse p
    parseElems parse realloc i (vecPush (realloc i) vec cur).2 p

/-- The loop over the pairs of a map; a failing `ht_insert` goes unnoticed. -/
def parsePairs (env : Env) (parse : Parser → Except Halt (Object × Parser)) (calloc : Nat → Option Nat) :
    Nat → Ht Object Object → Parser → Except Halt (Ht Object Object × Parser)
  | 0, ht, p => .ok (ht, p)
  | i + 1, ht, p => do
    let (key, p) ← parse p
    let (value, p) ← parse p
    parsePairs env parse calloc i (htInsert (objectOps env) (calloc i) ht key value).2 p

/-- The cases of the `switch` of `parse_object`. -/
inductive WireType where
  | string
  | int
  | double
  | bool
  | simple
  | error
  | array
  | ht
  deriving DecidableEq, Repr

def wireType (ch : UInt8) : Option WireType :=
  if ch = stringTypeByte then some .string
  else if ch = intTypeByte then some .int
  else if ch = doubleTypeByte then some .double
  else if ch = booleanTypeByte then some .bool
  else if ch = ascii '+' then some .simple
  else if ch = simpleErrTypeByte then some .error
  else if ch = arrayTypeByte then some .array
  else if ch = htTypeByte then some .ht
  else none

section Objects

variable (env : Env) (supply : Supply)

/-- The `$` branch. -/
def parseBulk (fuel : Nat) (p : Parser) : Except Halt (Object × Parser) := do
  let (len, p) ← parseHeader fuel p
  match len with
  | none => return (.null, p)
  | some len =>
    let (s, p) ← parseString supply (parserReadChar p) len
    return parserFinish (.string s) p

/-- The `*` branch. `vec_new` is not checked: the next use of a NULL faults. -/
def parseArray (fuel : Nat) (parse : Parser → Except Halt (Object × Parser)) (p : Parser) :
    Except Halt (Object × Parser) := do
  let start := p.rest.length
  let (len, p) ← parseHeader fuel p
  match len with
  | none => return (.null, p)
  | some len =>
    match (supply.mem start 0).calloc with
    | none => .error .bounds
    | some address =>
      let (vec, p) ← parseElems parse (fun i => (supply.mem start i).realloc) len (vecNew address) (parserReadChar p)
      return (.array vec, p)

/-- The `%` branch. `ht_new` asserts its allocation. -/
def parseHt (fuel : Nat) (parse : Parser → Except Halt (Object × Parser)) (p : Parser) :
    Except Halt (Object × Parser) := do
  let start := p.rest.length
  let (len, p) ← parseHeader fuel p
  match len with
  | none => return (.null, p)
  | some len =>
    match (supply.mem start 0).calloc with
    | none => .error .abort
    | some table =>
      let (ht, p) ← parsePairs env parse (fun i => (supply.mem start i).calloc) len (htNew (supply.seed start) table)
        (parserReadChar p)
      return (.ht ht, p)

def parseObject : Nat → Parser → Except Halt (Object × Parser)
  | 0, _ => .error .fuel
  | fuel + 1, p =>
    match wireType p.ch with
    | some .string => parseBulk supply fuel p
    | some .int => do
      let (val, p) ← parseInteger env supply fuel p
      return parserFinish (.int val) p
    | some .double => do
      let (val, p) ← parseDouble env supply fuel p
      return parserFinish (.double val) p
    | some .bool => .ok (parseBoolean p)
    | some .simple => do
      let (s, p) ← parseSimpleString supply fuel p
      return (.string s, parserReadChar p)
    | some .error => do
      let (s, p) ← parseError supply fuel p
      return (.string s, parserReadChar p)
    | some .array => parseArray supply fuel (parseObject fuel) p
    | some .ht => parseHt env supply fuel (parseObject fuel) p
    | none => .ok (.null, p)

def parseFromServer (fuel : Nat) (input : List UInt8) : Except Halt Object := do
  let (obj, _) ← parseObject env supply fuel (parserNew input)
  return obj

end Objects

inductive Cmdt where
  | illegal
  | okc
  | auth
  | ping
  | infoc
  | select
  | help
  | keys
  | set
  | get
  | del
  | push
  | pop
  | enque
  | deque
  | zset
  | zhas
  | zdel
  deriving DecidableEq, Repr

/-- `cmd`: the type with the union member that belongs to it. -/
inductive Cmd where
  | illegal
  | okc
  | auth (username password : Object)
  | ping
  | infoc
  | select (value : Object)
  | help (wantsCmdHelp : Int32) (cmdToHelp : Cmdt)
  | keys
  | set (key value : Object)
  | get (key : Object)
  | del (key : Object)
  | push (value : Object)
  | pop
  | enque (value : Object)
  | deque
  | zset (value : Object)
  | zhas (value : Object)
  | zdel (value : Object)

/-- A command of which only the type was set: the union is zero, so its objects
are Null. -/
def Cmd.bare : Cmdt → Cmd
  | .illegal => .illegal
  | .okc => .okc
  | .auth => .auth .null .null
  | .ping => .ping
  | .infoc => .infoc
  | .select => .select .null
  | .help => .help 0 .illegal
  | .keys => .keys
  | .set => .set .null .null
  | .get => .get .null
  | .del => .del .null
  | .push => .push .null
  | .pop => .pop
  | .enque => .enque .null
  | .deque => .deque
  | .zset => .zset .null
  | .zhas => .zhas .null
  | .zdel => .zdel .null

def lookup : List (List UInt8 × Cmdt) :=
  [(cstr "OK", .okc), (cstr "SET", .set), (cstr "GET", .get), (cstr "DEL", .del), (cstr "POP", .pop),
    (cstr "HELP", .help), (cstr "AUTH", .auth), (cstr "PING", .ping), (cstr "INFO", .infoc),
    (cstr "KEYS", .keys), (cstr "PUSH", .push), (cstr "ZSET", .zset), (cstr "ZHAS", .zhas),
    (cstr "ZDEL", .zdel), (cstr "ENQUE", .enque), (cstr "DEQUE", .deque), (cstr "SELECT", .select)]

def lookupCmd (s : Vstr) : Cmdt :=
  match lookup.find? fun l => l.1.length = vstrLen s && memcmp (vstrData s) l.1 = 0 with
  | some l => l.2
  | none => .illegal

section Commands

variable (env : Env) (supply : Supply)

def parseSimpleStringCmd (fuel : Nat) (p : Parser) : Except Halt (Cmdt × Parser) := do
  let (s, p) ← parseSimpleString supply fuel p
  return (lookupCmd s, parserReadChar p)

/-- `parse_cmd_type`, which `parse_bulk_string_cmd` is another name for. -/
def parseCmdType (fuel : Nat) (p : Parser) : Except Halt (Cmdt × Parser) :=
  match wireType p.ch with
  | some .string => do
    let (obj, p) ← parseObject env supply fuel p
    match obj with
    | .string s => return (lookupCmd s, p)
    | _ => return (.illegal, p)
  | some .simple => parseSimpleStringCmd supply fuel p
  | _ => .ok (.illegal, p)

/-- A command of one argument. -/
def parseOne (fuel len : Nat) (make : Object → Cmd) (p : Parser) : Except Halt Cmd :=
  if len ≠ 2 then .ok .illegal
  else do
    let (value, _) ← parseObject env supply fuel p
    match value with
    | .null => return .illegal
    | value => return make value

/-- A command of two arguments. -/
def parseTwo (fuel len : Nat) (make : Object → Object → Cmd) (p : Parser) : Except Halt Cmd :=
  if len ≠ 3 then .ok .illegal
  else do
    let (first, p) ← parseObject env supply fuel p
    match first with
    | .null => return .illegal
    | first =>
      let (second, _) ← parseObject env supply fuel p
      match second with
      | .null => return .illegal
      | second => return make first second

/-- SELECT takes an Int only. -/
def parseSelect (fuel len : Nat) (p : Parser) : Except Halt Cmd :=
  if len ≠ 2 then .ok .illegal
  else do
    let (value, _) ← parseObject env supply fuel p
    match value with
    | .int num => return .select (.int num)
    | _ => return .illegal

def parseHelp (fuel : Nat) (p : Parser) : Except Halt Cmd := do
  let (helpCmd, _) ← parseCmdType env supply fuel p
  if helpCmd = .illegal then return .illegal else return .help 1 helpCmd

/-- The `switch` of `parse_array_cmd`. -/
def parseArgs (fuel len : Nat) (type : Cmdt) (p : Parser) : Except Halt Cmd :=
  match type with
  | .help => parseHelp env supply fuel p
  | .auth => parseTwo env supply fuel len .auth p
  | .set => parseTwo env supply fuel len .set p
  | .get => parseOne env supply fuel len .get p
  | .del => parseOne env supply fuel len .del p
  | .push => parseOne env supply fuel len .push p
  | .enque => parseOne env supply fuel len .enque p
  | .zset => parseOne env supply fuel len .zset p
  | .zhas => parseOne env supply fuel len .zhas p
  | .zdel => parseOne env supply fuel len .zdel p
  | .select => parseSelect env supply fuel len p
  | _ => .ok .illegal

def parseArrayCmd (fuel : Nat) (p : Parser) : Except Halt Cmd := do
  let (len, p) ← parseHeader fuel p
  match len with
  | none => return .illegal
  | some len =>
    if len = 0 then return .illegal
    let (type, p) ← parseCmdType env supply fuel (parserReadChar p)
    if type = .illegal then return .illegal
    parseArgs env supply fuel len type p

def parseCmd (fuel : Nat) (p : Parser) : Except Halt Cmd :=
  match wireType p.ch with
  | some .array => parseArrayCmd env supply fuel p
  | some .simple => do
    let (type, _) ← parseSimpleStringCmd supply fuel p
    return .bare type
  | some .string => do
    let (type, _) ← parseCmdType env supply fuel p
    return .bare type
  | _ => .ok .illegal

def parse (fuel : Nat) (input : List UInt8) : Except Halt Cmd := parseCmd env supply fuel (parserNew input)

end Commands

end LexiDB
