import LexiDB.Hilexi
import LexiDB.Server

/-! The lines of the command line client: line_parser.c, and which function of the
library lexi-cli.c calls for the command it makes of a line. The parser has the
fields of the wire parser and reads characters the same way. -/

namespace LexiDB

open Lib

namespace LineParser

def lookups : List (List UInt8 × Cmdt) :=
  [(cstr "set", .set), (cstr "SET", .set), (cstr "get", .get), (cstr "GET", .get), (cstr "del", .del), (cstr "DEL", .del),
    (cstr "pop", .pop), (cstr "POP", .pop), (cstr "ping", .ping), (cstr "PING", .ping), (cstr "info", .infoc),
    (cstr "INFO", .infoc), (cstr "HELP", .help), (cstr "help", .help), (cstr "keys", .keys), (cstr "KEYS", .keys),
    (cstr "push", .push), (cstr "PUSH", .push), (cstr "zset", .zset), (cstr "ZSET", .zset), (cstr "zhas", .zhas),
    (cstr "ZHAS", .zhas), (cstr "zdel", .zdel), (cstr "ZDEL", .zdel), (cstr "enque", .enque), (cstr "ENQUE", .enque),
    (cstr "deque", .deque), (cstr "DEQUE", .deque), (cstr "select", .select), (cstr "SELECT", .select)]

def lookupCmd (s : Vstr) : Cmdt :=
  match lookups.find? fun l => l.1.length = vstrLen s && memcmp (vstrData s) l.1 = 0 with
  | some l => l.2
  | none => .illegal

/-- The condition of `skip_whitespace`. -/
def isBlank (ch : UInt8) : Bool := ch = ascii ' ' || ch = ascii '\t'

/-- The condition `p->ch != ' ' && p->ch != 0`. -/
def wordByte (ch : UInt8) : Bool := ch ≠ ascii ' ' && ch ≠ 0

def isLetter (ch : UInt8) : Bool :=
  (ascii 'a' ≤ ch && ch ≤ ascii 'z') || (ascii 'A' ≤ ch && ch ≤ ascii 'Z')

def isStartOfBulk (ch : UInt8) : Bool := ch = ascii '"'

def isNegativeInt (ch : UInt8) : Bool := ch = ascii '-'

def isStartOfNumber (p : Parser) : Bool := isDigit p.ch || (p.ch = ascii '-' && isDigit (peekByte p))

/-- The condition `p->ch != '"' && p->ch != 0`. -/
def bulkByte (ch : UInt8) : Bool := ch ≠ ascii '"' && ch ≠ 0

/-- What a character behind a backslash stands for. -/
def escaped (peek : UInt8) : Option UInt8 :=
  if peek = ascii 'n' then some (ascii '\n')
  else if peek = ascii 'r' then some (ascii '\r')
  else if peek = ascii 't' then some (ascii '\t')
  else if peek = ascii '"' then some (ascii '"')
  else none

def skipWhitespace (fuel : Nat) (p : Parser) : Except Halt Parser := parserSkip isBlank fuel p

/-- One round of `parse_bulk_string`. A backslash before any other character is
kept, and so is the character. -/
def bulkRound (supply : Supply) (state : Vstr × Parser) : Vstr × Parser :=
  let push := fun ch => (vstrPushChar (supply.mem state.2.rest.length 1) state.1 ch).2
  if state.2.ch = ascii '\\' then
    match escaped (peekByte state.2) with
    | some ch => (push ch, parserReadChar (parserReadChar state.2))
    | none => (push (ascii '\\'), parserReadChar state.2)
  else (push state.2.ch, parserReadChar state.2)

/-- The loop of `parse_number`, accumulating in an `int64_t` that wraps. -/
def parseDigits (fuel : Nat) (p : Parser) : Except Halt (Int64 × Parser) :=
  whileFuel (fun state => isDigit state.2.ch)
    (fun state => (state.1 * 10 + Int64.ofNat (digitValue state.2.ch), parserReadChar state.2)) fuel (0, p)

def parseNumber (fuel : Nat) (p : Parser) : Except Halt (Int64 × Parser) := do
  let isNegative := isNegativeInt p.ch
  let (num, p) ← parseDigits fuel (if isNegative then parserReadChar p else p)
  return (if isNegative then -num else num, p)

section Commands

variable (supply : Supply)

def parseString (fuel : Nat) (p : Parser) : Except Halt (Vstr × Parser) := parserCollect supply wordByte fuel vstrNew p

/-- The character behind the loop, a quote or the end, is passed over. -/
def parseBulkString (fuel : Nat) (p : Parser) : Except Halt (Vstr × Parser) := do
  let (s, p) ← whileFuel (fun state => bulkByte state.2.ch) (bulkRound supply) fuel (vstrNew, parserReadChar p)
  return (s, parserReadChar p)

def parseCmdType (fuel : Nat) (p : Parser) : Except Halt (Cmdt × Parser) := do
  let p ← skipWhitespace fuel p
  let (s, p) ← parserCollect supply wordByte fuel vstrNew p
  return (lookupCmd s, p)

def parseObject (fuel : Nat) (p : Parser) : Except Halt (Object × Parser) := do
  let p ← skipWhitespace fuel p
  if isLetter p.ch then
    let (s, p) ← parseString supply fuel p
    return (.string s, p)
  else if isStartOfBulk p.ch then
    let (s, p) ← parseBulkString supply fuel p
    return (.string s, p)
  else if isStartOfNumber p then
    let (num, p) ← parseNumber fuel p
    return (.int num, p)
  else return (.null, p)

/-- A command of one argument, whatever the argument is. -/
def parseOne (fuel : Nat) (make : Object → Cmd) (p : Parser) : Except Halt Cmd := do
  let (value, _) ← parseObject supply fuel p
  return make value

/-- The `switch` of `parse_cmd`. -/
def parseArguments (fuel : Nat) (type : Cmdt) (p : Parser) : Except Halt Cmd := do
  match type with
  | .ping => return .ping
  | .infoc => return .infoc
  | .help => return .help 0 .illegal
  | .keys => return .keys
  | .set =>
    let (key, p) ← parseObject supply fuel p
    let (value, _) ← parseObject supply fuel p
    return .set key value
  | .get => parseOne supply fuel .get p
  | .del => parseOne supply fuel .del p
  | .push => parseOne supply fuel .push p
  | .pop => return .pop
  | .enque => parseOne supply fuel .enque p
  | .deque => return .deque
  | .zset => parseOne supply fuel .zset p
  | .zhas => parseOne supply fuel .zhas p
  | .zdel => parseOne supply fuel .zdel p
  | .select =>
    let (value, _) ← parseObject supply fuel p
    match value with
    | .int num => return .select (.int num)
    | _ => return .illegal
  | _ => return .illegal

def parseCmd (fuel : Nat) (p : Parser) : Except Halt Cmd := do
  let (type, p) ← parseCmdType supply fuel p
  let p ← skipWhitespace fuel p
  parseArguments supply fuel type p

end Commands

end LineParser

/-- `parse_line` of line_parser.c. -/
def cliParseLine (supply : Supply) (fuel : Nat) (line : List UInt8) : Except Halt Cmd :=
  LineParser.parseCmd supply fuel (parserNew line)

/-- The call `execute_cmd` of lexi-cli.c makes for a command. The `int64_t` of SELECT
is passed as a `size_t`. -/
def cliCall : Cmd → Option Call
  | .ping => some .ping
  | .infoc => some .info
  | .select value => some (.select value.num.toUInt64.toNat)
  | .keys => some .keys
  | .set key value => some (.set key value)
  | .get key => some (.get key)
  | .del key => some (.del key)
  | .push value => some (.push value)
  | .pop => some .pop
  | .enque value => some (.enque value)
  | .deque => some .deque
  | .zset value => some (.zset value)
  | .zhas value => some (.zhas value)
  | .zdel value => some (.zdel value)
  | .illegal | .okc | .auth _ _ | .help _ _ => none

end LexiDB
