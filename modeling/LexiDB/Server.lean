import LexiDB.Parser
import LexiDB.LexiSet
import LexiDB.Queue

/-! The databases, the clients and `execute_cmd` of server.c, with the password
check of auth.c. -/

namespace LexiDB

open Lib

structure Lexidb where
  dict : Ht Object Object
  set : LexiSet Object
  queue : Queue Object
  vec : Vec Object

structure User where
  name : Vstr
  password : Vstr
  flags : Nat

/-- Zero-filled memory read as a user. -/
def User.zero : User := ⟨⟨.sm (List.replicate vstrMaxSmallSize 0), 0⟩, ⟨.sm (List.replicate vstrMaxSmallSize 0), 0⟩, 0⟩

instance : Inhabited User := ⟨.zero⟩

/-- `server`, less the fields that only logging and HELP read. `clients` holds
pointers. -/
structure Server where
  pid : Int32
  sfd : Nat
  port : UInt16
  executablePath : List UInt8
  osName : Vstr
  addr : Vstr
  confFilePath : Vstr
  numDatabases : Nat
  db : List Lexidb
  clients : Vec Nat
  users : Vec User
  cmdExecuted : Nat
  startTime : Nat

/-- `client`. `writeBuf` is the memory its pointer was set to. -/
structure Client where
  fd : Nat
  addr : Nat
  port : Nat
  flags : UInt16
  readBuf : List UInt8
  readPos : Nat
  readCap : Nat
  writeBuf : List UInt8
  writeSize : Nat
  databaseNum : Nat
  builder : Builder
  user : User
  timeConnected : Nat

/-- What `lexidb_new` makes one database with: the random seeds of its two tables
and the addresses of its arrays. The allocations are asserted. -/
structure LexidbMem where
  dictSeed : List UInt8
  dictTable : Nat
  setSeed : List UInt8
  vec : Nat

def lexidbNew (mem : Nat → LexidbMem) (numDatabases : Nat) : List Lexidb :=
  (List.range numDatabases).map fun i =>
    ⟨htNew (mem i).dictSeed (mem i).dictTable, setNew (mem i).setSeed, queueNew, vecNew (mem i).vec⟩

def defaultDatabases : Nat := 16

/-- `num_databases` as `server_new` takes it from the configuration. -/
def serverDatabases (databases : Nat) : Nat := if databases = 0 then defaultDatabases else databases

/-- The live clients by address. -/
abbrev Heap := Nat → Option Client

/-- The flag `AUTHENTICATED`. -/
def authenticated : UInt16 := 1

def Client.Authenticated (c : Client) : Prop := c.flags &&& authenticated ≠ 0

instance (c : Client) : Decidable c.Authenticated := inferInstanceAs (Decidable (_ ≠ _))

def errUnauthed : List UInt8 := cstr "EUNAUTHED"
def errInvalidCommand : List UInt8 := cstr "EINVCMD"
def errInvalidKey : List UInt8 := cstr "EINVKEY"
def errOom : List UInt8 := cstr "EOOM"
def errDbrange : List UInt8 := cstr "EDBRANGE"

/-- What the allocator and the clock answer while one command is executed. -/
structure Answers where
  supply : Supply
  resize : Option Nat
  set : SetMem
  vec : Option Nat
  node : Option Nat
  hash : Mem
  reply : Mem
  now : Nat

/-- Every request is granted, each at this address. -/
def Answers.granted (address : Nat → Nat → Nat) (now : Nat) : Answers :=
  ⟨.granted address, some (address 0 0), ⟨true, true⟩, some (address 0 0), some (address 0 0),
    .granted (address 0 0), .granted (address 0 0), now⟩

structure Answers.Grants (ans : Answers) : Prop where
  supply : ans.supply.Grants
  resize : ans.resize.isSome
  setResize : ans.set.resize = true
  setEntry : ans.set.entry = true
  vec : ans.vec.isSome
  node : ans.node.isSome
  hash : ans.hash.Grants
  reply : ans.reply.Grants

theorem Answers.granted_grants (address : Nat → Nat → Nat) (now : Nat) : (Answers.granted address now).Grants :=
  ⟨Supply.granted_grants _, rfl, rfl, rfl, rfl, rfl, Mem.granted_grants _, Mem.granted_grants _⟩

/-- `time_safe_compare` of two buffers of `len` bytes: zero when none differ. -/
def timeSafeCompare (a b : List UInt8) (len : Nat) : Int :=
  ((List.zip a b).take len).foldl (fun res pair => res ||| (pair.1 ^^^ pair.2)) (0 : UInt8) |>.toInt8.toInt

def hexDigit (nibble : UInt8) : UInt8 := (cstr "0123456789abcdef").getD nibble.toNat 0

def hashPassword (env : Env) (mem : Mem) (p : List UInt8) : Vstr :=
  let hex := (env.sha256 p).flatMap fun (byte : UInt8) => [hexDigit ((byte &&& 0xF0) >>> 4), hexDigit (byte &&& 0xF)]
  vstrFromLen mem hex 64

/-- `contains` of `add_users`: what `vec_find` returns, in an `int`. -/
def addUsersContains (users : Vec User) (user : User) : Int32 :=
  match vecFind users fun other => vstrCmp user.name other.name = 0 with
  | none => -1
  | some (found, _) => Int32.ofNat found

/-- The loop of `add_users`: what it returns, the users it has pushed and those of
the configuration, whose passwords it replaces. -/
def addUsersLoop (env : Env) (mem : Nat → Mem) : Nat → VecIter → Vec User → Vec User → Except Halt (Int × Vec User × Vec User)
  | 0, _, _, _ => .error .fuel
  | fuel + 1, iter, users, fromConfig =>
    match iter.cur with
    | none => .ok (0, users, fromConfig)
    | some i =>
      match fromConfig.slots[i]? with
      | none => .error .bounds
      | some user =>
        if addUsersContains users user ≠ -1 then .ok (-1, users, fromConfig)
        else
          let user := { user with password := hashPassword env (mem i) user.password.bytes }
          let fromConfig := { fromConfig with slots := fromConfig.slots.set i user }
          let (pushRes, users) := vecPush (mem i).realloc users user
          if pushRes = -1 then .ok (-1, users, fromConfig)
          else addUsersLoop env mem fuel (vecIterNext iter) users fromConfig

def addUsers (env : Env) (mem : Nat → Mem) (fuel : Nat) (users fromConfig : Vec User) :
    Except Halt (Int × Vec User × Vec User) :=
  addUsersLoop env mem fuel (vecIterNew fromConfig) users fromConfig

/-- `execute_auth_command`; the server is only read. -/
def executeAuthCommand (env : Env) (mem : Mem) (s : Server) (c : Client) (username password : Object) : Int × Client :=
  match username, password with
  | .string username, .string password =>
    match vecFind s.users fun user => vstrCmp username user.name = 0 with
    | none => (-1, c)
    | some (_, user) =>
      let hashed := hashPassword env mem password.bytes
      let cmp := timeSafeCompare (vstrData hashed) (vstrData user.password) (vstrLen hashed)
      if cmp = 0 then (cmp, { c with user := user, flags := c.flags ||| authenticated }) else (cmp, c)
  | _, _ => (-1, c)

namespace Server

/-- An access to `s->db[database_num]`: what it returns and leaves there. -/
def onDb (s : Server) (databaseNum : Nat) (access : Lexidb → α × Lexidb) : Except Halt (α × Server) :=
  match s.db[databaseNum]? with
  | none => .error .bounds
  | some db => .ok ((access db).1, { s with db := s.db.set databaseNum (access db).2 })

/-- `s->cmd_executed++` -/
def counted (s : Server) : Server := { s with cmdExecuted := (s.cmdExecuted + 1) % sizeMod }

end Server

section Commands

variable (env : Env)

def executeSetCommand (calloc : Option Nat) (s : Server) (key value : Object) (databaseNum : Nat) :
    Except Halt (HtResult × Server) :=
  s.onDb databaseNum fun db =>
    let (res, dict) := htInsert (objectOps env) calloc db.dict key value
    (res, { db with dict := dict })

def executeGetCommand (s : Server) (key : Object) (databaseNum : Nat) : Except Halt (Option Object × Server) :=
  s.onDb databaseNum fun db => (htGet (objectOps env) db.dict key, db)

def executeDelCommand (s : Server) (key : Object) (databaseNum : Nat) : Except Halt (HtResult × Server) :=
  s.onDb databaseNum fun db =>
    let (res, dict) := htDelete (objectOps env) db.dict key
    (res, { db with dict := dict })

def executePushCommand (realloc : Option Nat) (s : Server) (value : Object) (databaseNum : Nat) :
    Except Halt (Int × Server) :=
  s.onDb databaseNum fun db =>
    let (res, vec) := vecPush realloc db.vec value
    (res, { db with vec := vec })

def executePopCommand (s : Server) (databaseNum : Nat) : Except Halt (Option Object × Server) :=
  s.onDb databaseNum fun db =>
    let (out, vec) := vecPop db.vec
    (out, { db with vec := vec })

def executeEnqueCommand (malloc : Option Nat) (s : Server) (value : Object) (databaseNum : Nat) :
    Except Halt (Int × Server) :=
  s.onDb databaseNum fun db =>
    let (res, queue) := queueEnque malloc db.queue value
    (res, { db with queue := queue })

def executeDequeCommand (s : Server) (databaseNum : Nat) : Except Halt (Option Object × Server) :=
  s.onDb databaseNum fun db =>
    let (out, queue) := queueDeque db.queue
    (out, { db with queue := queue })

def executeZsetCommand (mem : SetMem) (s : Server) (value : Object) (databaseNum : Nat) :
    Except Halt (SetResult × Server) :=
  s.onDb databaseNum fun db =>
    let (res, set) := setInsert (objectOps env) mem db.set value
    (res, { db with set := set })

def executeZhasCommand (s : Server) (value : Object) (databaseNum : Nat) : Except Halt (Bool × Server) :=
  s.onDb databaseNum fun db => (setHas (objectOps env) db.set value, db)

def executeZdelCommand (s : Server) (value : Object) (databaseNum : Nat) : Except Halt (SetResult × Server) :=
  s.onDb databaseNum fun db =>
    let (res, set) := setDelete (objectOps env) db.set value
    (res, { db with set := set })

/-- The reply loop of KEYS over an iterator of `ht`. -/
def builderAddKeys (mem : Mem) (ht : Ht Object Object) : Nat → HtIter Object Object → Builder → Except Halt Builder
  | 0, _, _ => .error .fuel
  | fuel + 1, iter, b =>
    match iter.cur with
    | [] => .ok b
    | cur :: _ => do
      let (_, b) ← builderAddObject mem env fuel b cur.key
      builderAddKeys mem ht fuel (htIterNext ht iter) b

end Commands

/-- One entry of the INFO reply. -/
inductive InfoValue where
  | int (val : Int64)
  | string (str : List UInt8)

/-- The INFO entries in the order they are sent. -/
def Server.info (s : Server) (now : Nat) : List (List UInt8 × InfoValue) :=
  [(cstr "process id", .int s.pid.toInt64),
    (cstr "executable", .string s.executablePath),
    (cstr "config file", .string s.confFilePath.bytes),
    (cstr "OS", .string s.osName.bytes),
    (cstr "multiplexing api", .string (cstr "epoll")),
    (cstr "host", .string s.addr.bytes),
    (cstr "port", .int (Int64.ofNat s.port.toNat)),
    (cstr "commands processes", .int (Int64.ofNat s.cmdExecuted)),
    (cstr "num connections", .int (Int64.ofNat s.clients.len)),
    (cstr "num databases", .int (Int64.ofNat s.numDatabases)),
    (cstr "uptime", .string (decimal ((now + sizeMod - s.startTime % sizeMod) % sizeMod) ++ cstr " secs"))]

def builderAddInfo (mem : Mem) : List (List UInt8 × InfoValue) → Builder → Except Halt Builder
  | [], b => .ok b
  | (name, value) :: rest, b => do
    let (_, b) ← builderAddString mem b name
    let (_, b) ← match value with
      | .int val => builderAddInt mem b val
      | .string str => builderAddString mem b str
    builderAddInfo mem rest b

/-- `cmd.type` -/
def Cmd.type : Cmd → Cmdt
  | .illegal => .illegal
  | .okc => .okc
  | .auth _ _ => .auth
  | .ping => .ping
  | .infoc => .infoc
  | .select _ => .select
  | .help _ _ => .help
  | .keys => .keys
  | .set _ _ => .set
  | .get _ => .get
  | .del _ => .del
  | .push _ => .push
  | .pop => .pop
  | .enque _ => .enque
  | .deque => .deque
  | .zset _ => .zset
  | .zhas _ => .zhas
  | .zdel _ => .zdel

/-- `value.data.num`, which is zero in the zeroed data of a bare SELECT. -/
def Object.num : Object → Int64
  | .int num => num
  | _ => 0

namespace Client

variable (c : Client) (mem : Mem)

/-- The builder after an append; its result code is not looked at. -/
def appended (res : Int × Builder) : Client := { c with builder := res.2 }

def addErr (str : List UInt8) : Client := c.appended (builderAddErr mem c.builder str)

def addOk : Client := c.appended (builderAddOk mem c.builder)

def addNone : Client := c.appended (builderAddNone mem c.builder)

end Client

section Dispatch

variable (env : Env) (ans : Answers)

/-- The KEYS branch. The count is that of the selected database, the iterator
walks `s->db->dict`. -/
def executeKeys (fuel : Nat) (s : Server) (c : Client) : Except Halt (Server × Client) := do
  let (len, _) ← s.onDb c.databaseNum fun db => (db.dict.numEntries, db)
  if len = 0 then return (s.counted, c.addNone ans.reply)
  let (dict, _) ← s.onDb 0 fun db => (db.dict, db)
  let (_, b) ← builderAddArray ans.reply c.builder len
  let b ← builderAddKeys env ans.reply dict fuel (htIterNew dict) b
  return (s.counted, { c with builder := b })

/-- What GET, POP and DEQUE do with the object they found, if any. -/
def replyObject (fuel : Nat) (s : Server) (c : Client) (obj : Option Object) : Except Halt (Server × Client) :=
  match obj with
  | none => .ok (s, c.addNone ans.reply)
  | some obj => do
    let res ← builderAddObject ans.reply env fuel c.builder obj
    return (s.counted, c.appended res)

/-- The reply to a command that can be refused. -/
def replyOk (s : Server) (c : Client) (accepted : Bool) (err : List UInt8) : Server × Client :=
  if accepted then (s.counted, c.addOk ans.reply) else (s, c.addErr ans.reply err)

/-- The `switch` of `execute_cmd`. -/
def dispatch (fuel : Nat) (s : Server) (c : Client) : Cmd → Except Halt (Server × Client)
  | .okc => .ok (s, c)
  | .ping => .ok (s.counted, c.appended (builderAddPong ans.reply c.builder))
  | .auth username password =>
    let (res, c) := executeAuthCommand env ans.hash s c username password
    .ok (s, if res ≠ 0 then c.addErr ans.reply (cstr "failed to authenticate") else c.addOk ans.reply)
  | .infoc => do
    let (_, b) ← builderAddHt ans.reply c.builder 11
    let b ← builderAddInfo ans.reply (s.info ans.now) b
    return (s.counted, { c with builder := b })
  | .select value =>
    -- the int64 is compared with a size_t
    let dbNum := value.num.toUInt64.toNat
    if dbNum ≥ s.numDatabases then .ok (s, c.addErr ans.reply errDbrange)
    else .ok (s, { c with databaseNum := dbNum }.addOk ans.reply)
  | .keys => executeKeys env ans fuel s c
  | .set key value => do
    let (res, s) ← executeSetCommand env ans.resize s key value c.databaseNum
    return replyOk ans s c (res = .ok) errOom
  | .get key => do
    let (obj, s) ← executeGetCommand env s key c.databaseNum
    replyObject env ans fuel s c obj
  | .del key => do
    let (res, s) ← executeDelCommand env s key c.databaseNum
    return replyOk ans s c (res = .ok) errInvalidKey
  | .push value => do
    let (res, s) ← executePushCommand ans.vec s value c.databaseNum
    return replyOk ans s c (res ≠ -1) (cstr "unable to push")
  | .pop => do
    let (obj, s) ← executePopCommand s c.databaseNum
    replyObject env ans fuel s c obj
  | .enque value => do
    let (res, s) ← executeEnqueCommand ans.node s value c.databaseNum
    return replyOk ans s c (res ≠ -1) (cstr "failed to enque data")
  | .deque => do
    let (obj, s) ← executeDequeCommand s c.databaseNum
    replyObject env ans fuel s c obj
  | .zset value => do
    -- any other failure than SET_OOM is answered with OK
    let (res, s) ← executeZsetCommand env ans.set s value c.databaseNum
    return replyOk ans s c (res ≠ .oom) errOom
  | .zhas value => do
    let (found, s) ← executeZhasCommand env s value c.databaseNum
    if found then
      let res ← builderAddInt ans.reply c.builder 1
      return (s.counted, c.appended res)
    else return (s, c.addNone ans.reply)
  | .zdel value => do
    let (res, s) ← executeZdelCommand env s value c.databaseNum
    return replyOk ans s c (res = .ok) errInvalidKey
  | .illegal | .help _ _ => .ok (s, c.addErr ans.reply errInvalidCommand)

def executeCmd (fuel : Nat) (s : Server) (c : Client) : Except Halt (Server × Client) := do
  let cmd ← parse env ans.supply fuel (c.readBuf.take c.readPos)
  if cmd.type = .illegal then return (s, c.addErr ans.reply errInvalidCommand)
  if ¬ c.Authenticated ∧ cmd.type ≠ .auth then return (s, c.addErr ans.reply errUnauthed)
  dispatch env ans fuel s c cmd

end Dispatch

end LexiDB
