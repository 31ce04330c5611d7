import LexiDB.Parser

/-! The client library hilexi.c: its request functions, and the loops that move
their bytes over a non-blocking socket. -/

namespace LexiDB

open Lib

/-- `hilexi`, less what only connecting reads. -/
structure Hilexi where
  builder : Builder
  readBuf : List UInt8
  readPos : Nat
  readCap : Nat

def readBufInitialCap : Nat := 4096

/-- What `hilexi_new` returns once it has its socket and its read buffer. -/
def hilexiNew : Hilexi := ⟨builderNew, List.replicate readBufInitialCap 0, 0, readBufInitialCap⟩

/-- What one `read` of the socket reports: bytes, of which it takes as many as it
asks for, EAGAIN, the end of the stream, or another error. -/
inductive Incoming where
  | data (bytes : List UInt8)
  | again
  | eof
  | fail

/-- What the system answers during one call. `writes` holds what each `write`
returns, `none` for -1; `errno` is what it is set to when a call fails. -/
structure HilexiSys where
  mem : Mem
  writes : List (Option Nat)
  grow : Nat → Bool
  supply : Supply
  errno : Int32
  strerror : Int32 → List UInt8
  fuel : Nat

section Transfer

def reallocReadBuf (grow : Nat → Bool) (l : Hilexi) : Option Hilexi :=
  let newCap := l.readCap * 2 % sizeMod
  if grow newCap then
    some { l with readBuf := l.readBuf.take l.readPos ++ List.replicate (newCap - l.readPos) 0, readCap := newCap }
  else none

/-- The bytes `read` stores behind `read_pos`. -/
def Hilexi.received (l : Hilexi) (bytes : List UInt8) : Hilexi :=
  { l with
    readBuf := l.readBuf.take l.readPos ++ bytes ++ l.readBuf.drop (l.readPos + bytes.length)
    readPos := l.readPos + bytes.length }

/-- `hilexi_read`, with what is left to be read. Where `incoming` ends, `read`
reports EAGAIN. -/
def hilexiRead (grow : Nat → Bool) : Nat → Bool → List Incoming → Hilexi → Except Halt (Int × List Incoming × Hilexi)
  | 0, _, _, _ => .error .fuel
  | fuel + 1, receivedData, incoming, l =>
    match (if l.readPos = l.readCap then reallocReadBuf grow l else some l) with
    | none => .ok (-1, incoming, l)
    | some l =>
      match incoming with
      | [] => if receivedData then .ok (l.readPos, [], l) else hilexiRead grow fuel receivedData [] l
      | .again :: rest => if receivedData then .ok (l.readPos, rest, l) else hilexiRead grow fuel receivedData rest l
      | .eof :: rest => .ok (0, .eof :: rest, l)
      | .fail :: rest => .ok (-1, rest, l)
      | .data bytes :: rest =>
        let part := bytes.take (l.readCap - l.readPos)
        if part = [] then .ok (0, .data bytes :: rest, l)
        else if part.length = bytes.length then hilexiRead grow fuel true rest (l.received part)
        else hilexiRead grow fuel true (.data (bytes.drop part.length) :: rest) (l.received part)

/-- The loop of `hilexi_write` over `size` bytes; EAGAIN is an error like any
other. -/
def hilexiWriteLoop (size : Nat) : List (Option Nat) → Nat → Except Halt Int
  | writes, amountWritten =>
    if amountWritten < size then
      match writes with
      | [] => .error .fuel
      | none :: _ => .ok (-1)
      | some amt :: rest => hilexiWriteLoop size rest (amountWritten + amt)
    else .ok amountWritten

def hilexiWrite (writes : List (Option Nat)) (l : Hilexi) : Except Halt (Int × Hilexi) := do
  let amountWritten ← hilexiWriteLoop (builderLen l.builder) writes 0
  return (amountWritten, { l with builder := builderReset l.builder })

/-- `hilexi_parse`: the buffer is taken for one reply and cleared. -/
def hilexiParse (env : Env) (supply : Supply) (fuel : Nat) (l : Hilexi) : Except Halt (Object × Hilexi) := do
  let obj ← parseFromServer env supply fuel (l.readBuf.take l.readPos)
  return (obj, { l with readBuf := List.replicate l.readPos 0 ++ l.readBuf.drop l.readPos, readPos := 0 })

end Transfer

/-- A builder call of a request function, and the text it fails with. -/
structure BuilderCall where
  add : Builder → Except Halt (Int × Builder)
  err : List UInt8

/-- `result(object)` -/
inductive HilexiResult where
  | ok (obj : Object)
  | err (text : List UInt8)

/-- What tells the request functions apart: their builder calls, and how the two
errors of the socket spell `errno`. -/
structure RequestFn where
  calls : List BuilderCall
  errnoLabel : List UInt8

/-- The builder calls in order, up to the first that fails. -/
def builderCalls : List BuilderCall → Builder → Except Halt (Option (List UInt8) × Builder)
  | [], b => .ok (none, b)
  | call :: rest, b => do
    let (add, b) ← call.add b
    if add = -1 then return (some call.err, b)
    builderCalls rest b

/-- The body every request function but `hilexi_authenticate` has. -/
def hilexiRequest (env : Env) (sys : HilexiSys) (fn : RequestFn) (incoming : List Incoming) (l : Hilexi) :
    Except Halt (HilexiResult × List Incoming × Hilexi) := do
  let report := fun (text : List UInt8) => HilexiResult.err
    (text ++ cstr " (" ++ fn.errnoLabel ++ signedDecimal sys.errno.toInt ++ cstr ") " ++ sys.strerror sys.errno)
  let (failed, b) ← builderCalls fn.calls l.builder
  let l := { l with builder := b }
  match failed with
  | some text => return (.err text, incoming, l)
  | none =>
    let (written, l) ← hilexiWrite sys.writes l
    if written = -1 then return (report (cstr "failed to write to server"), incoming, l)
    let (read, incoming, l) ← hilexiRead sys.grow sys.fuel false incoming l
    if read = -1 then return (report (cstr "failed to read from server"), incoming, l)
    let (obj, l) ← hilexiParse env sys.supply sys.fuel l
    return (.ok obj, incoming, l)

section Authenticate

variable (env : Env) (sys : HilexiSys) (username password : List UInt8)

/-- The builder calls of `hilexi_authenticate`. That the first one failed goes
unnoticed: `add` is assigned again. -/
def authenticateCalls (mem : Mem) (b : Builder) : Except Halt (Int × Builder) := do
  let (_, b) ← builderAddArray mem b 3
  let (add, b) ← builderAddString mem b (cstr "AUTH")
  if add = -1 then return (-1, b)
  let (add, b) ← builderAddString mem b (untilNul username)
  if add = -1 then return (-1, b)
  builderAddString mem b (untilNul password)

def hilexiAuthenticate (incoming : List Incoming) (l : Hilexi) : Except Halt (Int × List Incoming × Hilexi) := do
  let (add, b) ← authenticateCalls username password sys.mem l.builder
  let l := { l with builder := b }
  if add = -1 then return (-1, incoming, l)
  let (written, l) ← hilexiWrite sys.writes l
  if written = -1 then return (-1, incoming, l)
  let (read, incoming, l) ← hilexiRead sys.grow sys.fuel false incoming l
  if read = -1 then return (-1, incoming, l)
  let (obj, l) ← hilexiParse env sys.supply sys.fuel l
  match obj with
  | .string s => return (vstrCmp s (vstrFrom sys.mem (cstr "OK")), incoming, l)
  | _ => return (-1, incoming, l)

end Authenticate

section Functions

variable (mem : Mem) (env : Env) (fuel : Nat)

def errnoColon : List UInt8 := cstr "errno: "

def errnoPlain : List UInt8 := cstr "errno "

def BuilderCall.array (arrLen : Nat) (err : List UInt8) : BuilderCall := ⟨fun b => builderAddArray mem b arrLen, err⟩

def BuilderCall.string (str err : List UInt8) : BuilderCall := ⟨fun b => builderAddString mem b str, err⟩

def BuilderCall.int (val : Int64) (err : List UInt8) : BuilderCall := ⟨fun b => builderAddInt mem b val, err⟩

def BuilderCall.object (obj : Object) (err : List UInt8) : BuilderCall := ⟨fun b => builderAddObject mem env fuel b obj, err⟩

/-- An array of the command's word and objects, each with the text of its error. -/
def commandCalls (word err : List UInt8) (args : List (Object × List UInt8)) : List BuilderCall :=
  .array mem (args.length + 1) (cstr "failed to add array to builder") :: .string mem word err ::
    args.map fun arg => .object mem env fuel arg.1 arg.2

def hilexiPing : RequestFn :=
  ⟨[⟨fun b => .ok (builderAddPing mem b), cstr "failed to add ping to builder"⟩], errnoColon⟩

def hilexiInfo : RequestFn := ⟨[.string mem (cstr "INFO") (cstr "failed to add ping to builder")], errnoColon⟩

/-- The `size_t` is passed as an `int64_t`. -/
def hilexiSelect (dbNum : Nat) : RequestFn :=
  ⟨[.array mem 2 (cstr "failed to add array to builder"),
    .string mem (cstr "SELECT") (cstr "failed to add select to builder"),
    .int mem (Int64.ofNat dbNum) (cstr "failed to add db num to builder")], errnoColon⟩

def hilexiKeys : RequestFn := ⟨[.string mem (cstr "KEYS") (cstr "failed to add array to builder")], errnoColon⟩

def hilexiSet (key value : Object) : RequestFn :=
  ⟨commandCalls mem env fuel (cstr "SET") (cstr "failed to add set to builder")
    [(key, cstr "failed to add key to builder"), (value, cstr "failed to add value to builder")], errnoColon⟩

def hilexiGet (key : Object) : RequestFn :=
  ⟨commandCalls mem env fuel (cstr "GET") (cstr "failed to add get to builder")
    [(key, cstr "failed to add key to builder")], errnoColon⟩

def hilexiDel (key : Object) : RequestFn :=
  ⟨commandCalls mem env fuel (cstr "DEL") (cstr "failed to add del to builder")
    [(key, cstr "failed to add key to builder")], errnoColon⟩

def hilexiPush (value : Object) : RequestFn :=
  ⟨commandCalls mem env fuel (cstr "PUSH") (cstr "failed to add push to builder")
    [(value, cstr "failed to add value to builder")], errnoColon⟩

def hilexiPop : RequestFn := ⟨[.string mem (cstr "POP") (cstr "failed to add pop to builder")], errnoColon⟩

def hilexiEnque (value : Object) : RequestFn :=
  ⟨commandCalls mem env fuel (cstr "ENQUE") (cstr "failed to add enque to builder")
    [(value, cstr "failed to add value to builder")], errnoPlain⟩

def hilexiDeque : RequestFn := ⟨[.string mem (cstr "DEQUE") (cstr "failed to add deque to builder")], errnoPlain⟩

def hilexiZset (value : Object) : RequestFn :=
  ⟨commandCalls mem env fuel (cstr "ZSET") (cstr "failed to add zset to builer")
    [(value, cstr "failed to add value to builder")], errnoPlain⟩

def hilexiZhas (value : Object) : RequestFn :=
  ⟨commandCalls mem env fuel (cstr "ZHAS") (cstr "failed to add zhas to builer")
    [(value, cstr "failed to add value to builder")], errnoPlain⟩

def hilexiZdel (value : Object) : RequestFn :=
  ⟨commandCalls mem env fuel (cstr "ZDEL") (cstr "failed to add zdel to builer")
    [(value, cstr "failed to add value to builder")], errnoPlain⟩

end Functions

/-- A call of the library. The user name and the password are C strings. -/
inductive Call where
  | authenticate (username password : List UInt8)
  | ping
  | info
  | select (dbNum : Nat)
  | keys
  | set (key value : Object)
  | get (key : Object)
  | del (key : Object)
  | push (value : Object)
  | pop
  | enque (value : Object)
  | deque
  | zset (value : Object)
  | zhas (value : Object)
  | zdel (value : Object)

/-- The function behind a call, none for `hilexi_authenticate`, which has its own
body. -/
def Call.fn (mem : Mem) (env : Env) (fuel : Nat) : Call → Option RequestFn
  | .authenticate _ _ => none
  | .ping => hilexiPing mem
  | .info => hilexiInfo mem
  | .select dbNum => hilexiSelect mem dbNum
  | .keys => hilexiKeys mem
  | .set key value => hilexiSet mem env fuel key value
  | .get key => hilexiGet mem env fuel key
  | .del key => hilexiDel mem env fuel key
  | .push value => hilexiPush mem env fuel value
  | .pop => hilexiPop mem
  | .enque value => hilexiEnque mem env fuel value
  | .deque => hilexiDeque mem
  | .zset value => hilexiZset mem env fuel value
  | .zhas value => hilexiZhas mem env fuel value
  | .zdel value => hilexiZdel mem env fuel value

/-- What a call puts in its builder, `none` where one of the builder calls
fails. -/
def Call.build (mem : Mem) (env : Env) (fuel : Nat) (call : Call) (b : Builder) : Except Halt (Option Builder) :=
  match call, call.fn mem env fuel with
  | _, some fn => do
    let (failed, b) ← builderCalls fn.calls b
    return if failed.isSome then none else some b
  | .authenticate username password, none => do
    let (add, b) ← authenticateCalls username password mem b
    return if add = -1 then none else some b
  | _, none => .ok none

/-- What a call returns: the `int` of `hilexi_authenticate`, or a `result(object)`. -/
inductive CallResult where
  | code (res : Int)
  | object (res : HilexiResult)

/-- A call, with what it leaves to be read. -/
def Call.perform (env : Env) (sys : HilexiSys) (call : Call) (incoming : List Incoming) (l : Hilexi) :
    Except Halt (CallResult × List Incoming × Hilexi) :=
  match call, call.fn sys.mem env sys.fuel with
  | _, some fn => do
    let (res, incoming, l) ← hilexiRequest env sys fn incoming l
    return (.object res, incoming, l)
  | .authenticate username password, none => do
    let (res, incoming, l) ← hilexiAuthenticate env sys username password incoming l
    return (.code res, incoming, l)
  | _, none => .ok (.code (-1), incoming, l)

end LexiDB
