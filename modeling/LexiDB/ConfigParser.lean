import LexiDB.Server

/-! The configuration file of config_parser.c. Its parser has the fields of the
wire parser and reads characters the same way. -/

namespace LexiDB

open Lib

structure Config where
  port : UInt16
  databases : Nat
  address : Vstr
  users : Vec User
  loglevel : Vstr

/-- `result(T)`: the value, or the text of the error. -/
inductive Result (α : Type) where
  | ok (value : α)
  | err (text : List UInt8)

inductive LineDataType where
  | address
  | port
  | user
  | logLevel
  | databases
  deriving DecidableEq, Repr

/-- `line_data`: the type with the union member that belongs to it. -/
inductive LineData where
  | address (address : Vstr)
  | loglevel (loglevel : Vstr)
  | port (port : UInt16)
  | databases (databases : Nat)
  | user (user : User)

def configLookups : List (List UInt8 × LineDataType) :=
  [(cstr "port", .port), (cstr "user", .user), (cstr "address", .address), (cstr "loglevel", .logLevel),
    (cstr "databases", .databases)]

section Characters

/-- The loop of `config_parser_read_string`. -/
def configStringByte (ch : UInt8) : Bool := ch ≠ ascii ' ' && ch ≠ ascii '\n' && ch ≠ 0

/-- The loop of `config_parser_parse_address`. -/
def configAddressByte (ch : UInt8) : Bool := isDigit ch || ch = ascii '.'

def configSpace (ch : UInt8) : Bool := ch = ascii ' ' || ch = ascii '\t'

def configWhitespace (ch : UInt8) : Bool := ch = ascii ' ' || ch = ascii '\t' || ch = ascii '\r' || ch = ascii '\n'

def configCommentByte (ch : UInt8) : Bool := ch ≠ ascii '\n' && ch ≠ 0

/-- The check `p->ch != '\n' && p->ch != 0` behind a value. -/
def configLineGoesOn (p : Parser) : Bool := configCommentByte p.ch

def configParserSkipSpaces (fuel : Nat) (p : Parser) : Except Halt Parser := parserSkip configSpace fuel p

def configParserSkipWhitespace (fuel : Nat) (p : Parser) : Except Halt Parser := parserSkip configWhitespace fuel p

def configParserSkipComment (fuel : Nat) (p : Parser) : Except Halt Parser := parserSkip configCommentByte fuel p

def configParserSkipEmptyLinesAndComments : Nat → Parser → Except Halt Parser
  | 0, _ => .error .fuel
  | fuel + 1, p =>
    if p.ch = ascii '#' then do
      let p ← configParserSkipComment fuel p
      configParserSkipEmptyLinesAndComments fuel p
    else if p.ch = ascii '\n' then do
      let p ← configParserSkipWhitespace fuel p
      configParserSkipEmptyLinesAndComments fuel p
    else .ok p

end Characters

section Lines

variable (supply : Supply)

def configParserReadString (fuel : Nat) (p : Parser) : Except Halt (Vstr × Parser) :=
  parserCollect supply configStringByte fuel vstrNew p

def configParserParseLineDataType (fuel : Nat) (p : Parser) : Except Halt (Result LineDataType × Parser) := do
  let (s, p) ← configParserReadString supply fuel p
  match configLookups.find? fun lookup => lookup.1.length = vstrLen s && memcmp (vstrData s) lookup.1 = 0 with
  | some lookup => return (.ok lookup.2, p)
  | none => return (.err (cstr "unknown data type: " ++ untilNul (vstrData s)), p)

def configParserParseAddress (fuel : Nat) (p : Parser) : Except Halt (Vstr × Parser) := do
  let (res, p) ← parserCollect supply configAddressByte fuel vstrNew p
  let p ← configParserSkipSpaces fuel p
  return (if configLineGoesOn p then vstrFree res else res, p)

def configParserParseLogLevel (fuel : Nat) (p : Parser) : Except Halt (Vstr × Parser) := do
  let (res, p) ← configParserReadString supply fuel p
  let p ← configParserSkipSpaces fuel p
  return (if configLineGoesOn p then vstrFree res else res, p)

/-- `num` is a `size_t`. -/
def configParserParseNumDatabases (fuel : Nat) (p : Parser) : Except Halt (Result Nat × Parser) := do
  let (num, p) ← parseLen fuel p
  let p ← configParserSkipSpaces fuel p
  if configLineGoesOn p then return (.err (cstr "expected only the number of databases"), p)
  return (.ok num, p)

/-- `num` is a `uint64_t`; the first message is the one for the databases. -/
def configParserParsePort (fuel : Nat) (p : Parser) : Except Halt (Result UInt16 × Parser) := do
  let (num, p) ← parseLen fuel p
  let p ← configParserSkipSpaces fuel p
  if configLineGoesOn p then return (.err (cstr "expected only the number of databases"), p)
  if num > 65535 then return (.err (decimal num ++ cstr " is too big to be a port"), p)
  return (.ok (UInt16.ofNat num), p)

/-- The loop of `config_parser_parse_user`: a second password replaces the first. -/
def configParserPasswords : Nat → User → Parser → Except Halt (Result User × Parser)
  | 0, _, _ => .error .fuel
  | fuel + 1, user, p =>
    if configLineGoesOn p then
      if p.ch = ascii '>' then do
        let (password, p) ← configParserReadString supply fuel (parserReadChar p)
        let p ← configParserSkipSpaces fuel p
        configParserPasswords fuel { user with password := password } p
      else .ok (.err (cstr "unexpected character when parsing user '" ++ [p.ch] ++ cstr "'"), p)
    else .ok (.ok user, p)

def configParserParseUser (fuel : Nat) (p : Parser) : Except Halt (Result User × Parser) := do
  let (name, p) ← configParserReadString supply fuel p
  let p ← configParserSkipSpaces fuel p
  configParserPasswords supply fuel { User.zero with name := name, password := vstrNew } p

/-- The result of a line's value as the line it makes. -/
def Result.map (make : α → β) : Result α → Result β
  | .ok value => .ok (make value)
  | .err text => .err text

def configParserParseLine (fuel : Nat) (p : Parser) : Except Halt (Result LineData × Parser) := do
  let (type, p) ← configParserParseLineDataType supply fuel p
  match type with
  | .err text => return (.err text, p)
  | .ok type =>
    let p ← configParserSkipSpaces fuel p
    match type with
    | .address => do
      let (addr, p) ← configParserParseAddress supply fuel p
      return (.ok (.address addr), p)
    | .logLevel => do
      let (level, p) ← configParserParseLogLevel supply fuel p
      return (.ok (.loglevel level), p)
    | .port => do
      let (res, p) ← configParserParsePort fuel p
      return (res.map .port, p)
    | .user => do
      let (res, p) ← configParserParseUser supply fuel p
      return (res.map .user, p)
    | .databases => do
      let (res, p) ← configParserParseNumDatabases fuel p
      return (res.map .databases, p)

/-- The `switch` of `config_parser_parse`; a failing `vec_push` goes unnoticed. -/
def Config.add (realloc : Option Nat) (config : Config) : LineData → Result Config
  | .address address =>
    if vstrLen config.address ≠ 0 then .err (cstr "address set twice in config")
    else .ok { config with address := address }
  | .loglevel loglevel =>
    if vstrLen config.loglevel ≠ 0 then .err (cstr "loglevel set twice in config")
    else .ok { config with loglevel := loglevel }
  | .port port =>
    if config.port ≠ 0 then .err (cstr "port set twice in config")
    else .ok { config with port := port }
  | .user user => .ok { config with users := (vecPush realloc config.users user).2 }
  | .databases databases =>
    if config.databases ≠ 0 then .err (cstr "number of databases set twice in config")
    else .ok { config with databases := databases }

def configParserParse : Nat → Config → Parser → Except Halt (Result Config)
  | 0, _, _ => .error .fuel
  | fuel + 1, config, p =>
    if p.ch = 0 then .ok (.ok config)
    else do
      let p ← configParserSkipEmptyLinesAndComments fuel p
      if p.ch = 0 then return .ok config
      let (line, p) ← configParserParseLine supply fuel p
      match line with
      | .err text => return .err text
      | .ok line =>
        match config.add (supply.mem p.rest.length 2).realloc line with
        | .err text => return .err text
        | .ok config => configParserParse fuel config p

def configNew (address : Nat) : Config := ⟨0, 0, vstrNew, vecNew address, vstrNew⟩

/-- `parse_config`. The vector of the users is asserted. -/
def parseConfig (fuel : Nat) (input : List UInt8) : Except Halt (Result Config) :=
  match (supply.mem input.length 0).calloc with
  | none => .error .abort
  | some address => configParserParse supply fuel (configNew address) (parserNew input)

end Lines

end LexiDB
