import LexiDB.ReadFile
import LexiDB.Networking
import LexiDB.Progress

/-! Starting the server: `server_new`, from the configuration file to the state the
event loop begins with. -/

namespace LexiDB

open Lib

variable {α : Type}

/-- `log_level` -/
inductive LogLevel where
  | none
  | info
  | debug
  | verbose
  deriving DecidableEq, Repr

def logLevelLookups : List (List UInt8 × LogLevel) :=
  [(cstr "none", .none), (cstr "info", .info), (cstr "debug", .debug), (cstr "verbose", .verbose)]

def determineLoglevel (loglevel : Vstr) : Result LogLevel :=
  match logLevelLookups.find? fun lll =>
    lll.1.length = vstrLen loglevel && strncmp (vstrLen loglevel) (vstrData loglevel) lll.1 = 0 with
  | some lll => .ok lll.2
  | none => .err (cstr "invalid log level")

def defaultAddress : List UInt8 := cstr "127.0.0.1"

def defaultPort : UInt16 := 6969

/-- What the system answers while the server starts. `bind` is told the address and
the port, `listen` the backlog; a back end of the event loop may open descriptors of
its own. -/
structure Boot (α : Type) where
  errno : Int32
  strerror : Int32 → List UInt8
  socket : Option Nat
  reuseAddr : Bool
  opened : Except OpenError (List UInt8)
  file : Nat → Mem
  supply : Supply
  bind : UInt32 → UInt16 → Bool
  listen : Nat → Bool
  users : Option Nat
  add : Nat → Mem
  executablePath : Option (List UInt8)
  sysname : List UInt8
  release : List UInt8
  machine : List UInt8
  mem : Mem
  clients : Option Nat
  ev : Option (Finset Nat × α)
  api : EvApi EvFileFn α
  time : Nat
  pid : Int32
  db : Nat → LexidbMem

/-- The text of an error with `errno` and what `strerror` makes of it. -/
def Boot.report (boot : Boot α) (text : List UInt8) : List UInt8 :=
  text ++ signedDecimal boot.errno.toInt ++ cstr ") " ++ boot.strerror boot.errno

/-- The text of `get_os_name`. -/
def Boot.osName (boot : Boot α) : List UInt8 := boot.sysname ++ ascii ' ' :: boot.release ++ ascii ' ' :: boot.machine

def Config.listenAddr (config : Config) : List UInt8 :=
  if vstrLen config.address = 0 then defaultAddress else vstrData config.address

def Config.listenPort (config : Config) : UInt16 := if config.port = 0 then defaultPort else config.port

def Config.level (config : Config) : Result LogLevel :=
  if vstrLen config.loglevel = 0 then .ok .info else determineLoglevel config.loglevel

/-- `vstr_from(addr)`, read after the configuration was freed: a long address is gone
by then, a short one still stands in the struct. -/
def Config.addrStr (mem : Mem) (config : Config) : Except Halt Vstr :=
  if vstrLen config.address = 0 then .ok (vstrFrom mem defaultAddress)
  else
    match config.address.strData with
    | .lg _ => .error .bounds
    | .sm _ => .ok (vstrFrom mem (vstrData (vstrFree config.address)))

/-- The server that runs, and how much it logs. -/
structure Started (α : Type) where
  world : World α
  logLevel : LogLevel

/-- `server_new`, with the descriptors that are open afterwards. -/
def serverNew (env : Env) (boot : Boot α) (fuel : Nat) (confFilePath : Vstr) (fds : Finset Nat) :
    Except Halt (Finset Nat × Result (Started α)) :=
  match boot.socket with
  | none => .ok (fds, .err (boot.report (cstr "failed to create socket (errno: ")))
  | some sfd =>
    let fds := insert sfd fds
    -- every error from here on closes the socket
    let refuse := fun (text : List UInt8) => Except.ok (fds.erase sfd, Result.err text)
    if boot.reuseAddr = false then refuse (boot.report (cstr "failed to set reuse addr on socket (errno "))
    else do
      match ← readFile boot.file fuel (vstrData confFilePath) boot.opened with
      | .err text => refuse text
      | .ok contents =>
        match ← parseConfig boot.supply fuel contents.bytes with
        | .err text => refuse text
        | .ok config =>
          match config.level with
          | .err text => refuse text
          | .ok logLevel =>
            if boot.bind (parseAddr config.listenAddr) config.listenPort = false then
              refuse (boot.report (cstr "failed to bind socket (errno: "))
            else if boot.listen serverBacklog = false then refuse (boot.report (cstr "failed to listen on socket (errno: "))
            else
              match boot.users with
              | none => refuse (cstr "failed to allocate memory for users vector")
              | some address => do
                let (addUsersRes, users, _) ← addUsers env boot.add fuel (vecNew address) config.users
                if addUsersRes = -1 then refuse (cstr "failed to push users to users vector")
                else
                  match boot.executablePath with
                  | none => refuse (boot.report (cstr "failed to get executable path (errno: ") ++ [ascii '\n'])
                  | some executablePath => do
                    let osName ← vstrFormat boot.mem boot.osName
                    let addr ← config.addrStr boot.mem
                    match boot.clients with
                    | none => refuse (cstr "failed to allocate for client vec")
                    | some clients =>
                      match boot.ev with
                      | none => refuse (cstr "failed to allocate memory for ev")
                      | some (apiFds, api) =>
                        let fds := fds ∪ apiFds
                        match evAddEvent boot.api (evNew api serverBacklog) sfd evRead .serverAccept serverData with
                        | none =>
                          -- `ev_free` closes what the back end has opened
                          .ok ((fds \ apiFds).erase sfd,
                            .err (boot.report (cstr "failed to add server accept as event_fn to ev (errno: ")))
                        | some ev =>
                          let numDatabases := serverDatabases config.databases
                          let server : Server :=
                            { pid := boot.pid, sfd := sfd, port := config.listenPort, executablePath := executablePath,
                              osName := osName, addr := addr, confFilePath := confFilePath, numDatabases := numDatabases,
                              db := lexidbNew boot.db numDatabases, clients := vecNew clients, users := users,
                              cmdExecuted := 0, startTime := boot.time }
                          .ok (fds, .ok ⟨⟨server, fun _ => none, fds, ev⟩, logLevel⟩)

section Stages

variable {env : Env} {mem : Nat → Mem} {supply : Supply}

theorem readFileLoop_total (file : List UInt8) (s : Vstr) : Total fun fuel => readFileLoop mem fuel file s := by
  induction file generalizing s with
  | nil => exact .of_succ rfl (.pure (some s))
  | cons byte rest ih =>
    refine .of_succ rfl ?_
    by_cases taken : fileByte byte = true
    · by_cases refused : (vstrPushChar (mem rest.length) s byte).1 = -1
      · simp only [readFileLoop_byte taken, if_pos refused]
        exact .pure _
      · simp only [readFileLoop_byte taken, if_neg refused]
        exact ih _
    · have ends : ∀ fuel, readFileLoop mem (fuel + 1) (byte :: rest) s = .ok (some s) :=
        fun fuel => readFileLoop_end _ (by simpa using taken) fuel s
      simp only [ends]
      exact .pure _

theorem readFile_total (path : List UInt8) (opened : Except OpenError (List UInt8)) : Total fun fuel => readFile mem fuel path opened := by
  cases opened with
  | error error => exact .pure _
  | ok file =>
    refine (readFileLoop_total file vstrNew).bind fun read _ _ => ?_
    cases read with
    | none => exact .pure _
    | some s => exact .pure _

theorem configParserParse_total (grants : supply.Grants) (config : Config) (p : Parser) :
    Total fun fuel => configParserParse supply fuel config p := by
  induction count : p.pending using Nat.strongRecOn generalizing p config with
  | _ pending ih =>
    refine .of_succ rfl ?_
    simp only [configParserParse]
    split
    · exact .pure _
    · refine (configParserSkipEmptyLinesAndComments_total p).bind fun start fuel skipped => ?_
      have blank := configParserSkipEmptyLinesAndComments_pending fuel p start skipped
      split
      · exact .pure _
      · refine (configParserParseLine_total grants start).bind ?_
        rintro ⟨line, behind⟩ _ parsed
        cases line with
        | err text => exact .pure _
        | ok line =>
          have fewer := (configParserParseLine_kept grants parsed).1
          dsimp only
          split
          · exact .pure _
          · exact ih behind.pending (by omega) _ behind rfl

theorem parseConfig_total (grants : supply.Grants) (input : List UInt8) : Total fun fuel => parseConfig supply fuel input := by
  obtain ⟨address, granted⟩ := Option.isSome_iff_exists.mp (grants input.length 0).1
  simp only [parseConfig, granted]
  exact configParserParse_total grants _ _

/-- What adding a line keeps holds of the configuration. -/
theorem parseConfig_invariant {P : Config → Prop} (new : ∀ address, P (configNew address))
    (add : ∀ config realloc line after, P config → config.add realloc line = .ok after → P after)
    (done : parseConfig supply fuel input = .ok (.ok config)) : P config := by
  have loop : ∀ fuel config p after, P config → configParserParse supply fuel config p = .ok (.ok after) → P after := by
    intro fuel
    induction fuel with
    | zero =>
      intro config p after _ done
      cases done
    | succ fuel ih =>
      intro config p after holds done
      simp only [configParserParse] at done
      split at done
      · cases done
        exact holds
      · obtain ⟨start, _, done⟩ := bind_eq_ok.mp done
        split at done
        · cases done
          exact holds
        · obtain ⟨⟨line, behind⟩, _, done⟩ := bind_eq_ok.mp done
          cases line with
          | err text => cases done
          | ok line =>
            simp only at done
            split at done
            · cases done
            · rename_i next added
              exact ih _ _ _ (add _ _ _ _ holds added) done
  unfold parseConfig at done
  split at done
  · cases done
  · exact loop _ _ _ _ (new _) done

/-- Where no user was added, the vector was never written. -/
theorem parseConfig_nobody (done : parseConfig supply fuel input = .ok (.ok config)) (none_ : config.users.len = 0) :
    ∃ address, config.users = vecNew address := by
  have kept := parseConfig_invariant (P := fun config => (∃ address, config.users = vecNew address) ∨ 0 < config.users.len)
    (fun address => .inl ⟨address, rfl⟩) (fun config realloc line after holds added => by
      cases line with
      | user user =>
        cases added
        unfold vecPush
        split
        · exact holds
        · rename_i grown _
          exact .inr (Nat.succ_pos grown.len)
      | _ =>
        simp only [Config.add] at added
        split at added
        · cases added
        · cases added
          exact holds) done
  rcases kept with new | some_
  · exact new
  · omega

/-- A round for a user that is new. -/
theorem addUsersLoop_new {iter : VecIter} {users after conf : Vec User} {user : User} (fuel : Nat) (current : iter.cur = some i)
    (slot : conf.slots[i]? = some user) (clear : addUsersContains users user = -1)
    (pushed : vecPush (mem i).realloc users (user.hashed env (mem i)) = (0, after)) :
    addUsersLoop env mem (fuel + 1) iter users conf =
      addUsersLoop env mem fuel (vecIterNext iter) after { conf with slots := conf.slots.set i (user.hashed env (mem i)) } := by
  have added : vecPush (mem i).realloc users { user with password := hashPassword env (mem i) user.password.bytes } = (0, after) := pushed
  simp only [addUsersLoop, current, slot, clear, added]
  rfl

/-- Without users `add_users` walks over the empty slots of the vector and takes the
second for a duplicate of the first. -/
theorem addUsers_nobody (env : Env) (mem : Nat → Mem) (address from_ : Nat) :
    addUsers env mem 1 (vecNew address) (vecNew from_) = .error .fuel ∧
      ∃ users last, ∀ fuel, addUsers env mem (fuel + 2) (vecNew address) (vecNew from_) = .ok (-1, users, last) := by
  obtain ⟨hashed, same⟩ : ∃ hashed, hashed = User.zero.hashed env (mem 0) := ⟨_, rfl⟩
  have name : hashed.name = User.zero.name := by rw [same]; rfl
  have pushed : vecPush (mem 0).realloc (vecNew address) (User.zero.hashed env (mem 0)) =
      (0, ⟨address, 1, vecInitialCap, [hashed, User.zero]⟩) := by
    rw [← same]
    rfl
  have current : (vecIterNew (vecNew from_ : Vec User)).cur = some 0 := rfl
  have head : (vecNew from_ : Vec User).slots[0]? = some User.zero := rfl
  have clear : addUsersContains (vecNew address) User.zero = -1 := rfl
  have first : ∀ fuel, addUsersLoop env mem (fuel + 1) (vecIterNew (vecNew from_)) (vecNew address) (vecNew from_) = _ :=
    fun fuel => addUsersLoop_new fuel current head clear pushed
  have next : (vecIterNext (vecIterNew (vecNew from_ : Vec User))).cur = some 1 := by
    simp [vecIterNew, vecIterNext, vecNew, sizeMod]
  have slot : ((vecNew from_ : Vec User).slots.set 0 hashed)[1]? = some User.zero := rfl
  have found : addUsersContains ⟨address, 1, vecInitialCap, [hashed, User.zero]⟩ User.zero = 0 := by
    have equal : vstrCmp User.zero.name User.zero.name = 0 := by decide
    simp [addUsersContains, vecFind, equal, name]
  have taken : addUsersContains ⟨address, 1, vecInitialCap, [hashed, User.zero]⟩ User.zero ≠ -1 := by
    rw [found]
    decide
  refine ⟨first 0, ⟨address, 1, vecInitialCap, [hashed, User.zero]⟩,
    { (vecNew from_ : Vec User) with slots := (vecNew from_ : Vec User).slots.set 0 hashed }, fun fuel => ?_⟩
  rw [addUsers, first (fuel + 1), ← same]
  simp only [addUsersLoop, next, slot, if_pos taken]

theorem addUsersLoop_total (granted : ∀ i, (mem i).Grants) {conf : Vec User} (valid : conf.Valid) (bound : conf.len + 2 < sizeMod) :
    ∀ i iter users left, i ≤ conf.len → Adding env mem conf i iter users left →
      Total fun fuel => addUsersLoop env mem fuel iter users left := by
  intro i
  induction more : conf.len - i generalizing i with
  | zero =>
    intro iter users left within adding
    have ended : iter.cur = none := by
      rw [adding.at_.2.2.1, if_neg (by omega)]
    refine .of_succ rfl ?_
    simp only [addUsersLoop, ended]
    exact .pure _
  | succ more ih =>
    intro iter users left within adding
    obtain ⟨user, after, others, _, next, round⟩ := addUsersLoop_round granted valid bound adding (by omega)
    refine .of_succ rfl ?_
    by_cases taken : addUsersContains users user ≠ -1
    · simp only [round, if_pos taken]
      exact .pure _
    · simp only [round, if_neg taken]
      exact ih (i + 1) (by omega) _ _ _ (by omega) next

/-- Users that can be walked over are added or refused, and none are refused. -/
theorem addUsers_total (env : Env) (granted : ∀ i, (mem i).Grants) {conf : Vec User} (valid : conf.Valid) (bound : conf.len + 2 < sizeMod)
    (new : conf.len = 0 → ∃ from_, conf = vecNew from_) (address : Nat) :
    Total fun fuel => addUsers env mem fuel (vecNew address) conf := by
  by_cases some_ : 0 < conf.len
  · exact addUsersLoop_total granted valid bound 0 _ _ _ (Nat.zero_le _) (adding_start env mem some_ bound address)
  · obtain ⟨from_, rfl⟩ := new (by omega)
    obtain ⟨short, users, last, refused⟩ := addUsers_nobody env mem address from_
    refine .of_succ rfl (.of_succ short ?_)
    simp only [refused]
    exact .pure _

end Stages

section Starting

variable {env : Env} {boot : Boot α} {confFilePath : Vstr} {fds left : Finset Nat} {config : Config}

/-- A new descriptor is one that is not open. -/
structure Boot.Possible (boot : Boot α) (fds : Finset Nat) : Prop where
  socket : ∀ sfd, boot.socket = some sfd → sfd ∉ fds
  ev : ∀ sfd opened api, boot.socket = some sfd → boot.ev = some (opened, api) → Disjoint opened (insert sfd fds)

/-- The allocations for strings and for growing vectors are granted. -/
structure Boot.Grants (boot : Boot α) : Prop where
  file : ∀ i, (boot.file i).Grants
  supply : boot.supply.Grants
  add : ∀ i, (boot.add i).Grants
  mem : boot.mem.calloc.isSome
  short : boot.osName.length < vstrMaxLargeSize

/-- The configuration that the file is parsed to, where a string can hold it. -/
def Boot.Configures (boot : Boot α) (config : Config) : Prop :=
  ∃ file fuel, boot.opened = .ok file ∧ (file.takeWhile fileByte).length ≤ vstrMaxLargeSize ∧
    parseConfig boot.supply fuel (file.takeWhile fileByte) = .ok (.ok config)

/-- What stands once `server_new` has returned a server. -/
structure Boot.Opens (env : Env) (boot : Boot α) (fds : Finset Nat) (config : Config) (started : Started α) : Prop where
  socket : boot.socket = some started.world.server.sfd
  reuseAddr : boot.reuseAddr = true
  configures : boot.Configures config
  level : config.level = .ok started.logLevel
  bind : boot.bind (parseAddr config.listenAddr) config.listenPort = true
  listen : boot.listen serverBacklog = true
  added : ∃ address rounds last, boot.users = some address ∧
    addUsers env boot.add rounds (vecNew address) config.users = .ok (0, started.world.server.users, last)
  executable : boot.executablePath.isSome
  clients : ∃ address, boot.clients = some address ∧ started.world.server.clients = vecNew address
  ev : ∃ opened api, boot.ev = some (opened, api) ∧ started.world.fds = insert started.world.server.sfd fds ∪ opened ∧
    evAddEvent boot.api (evNew api serverBacklog) started.world.server.sfd evRead .serverAccept serverData = some started.world.ev
  port : started.world.server.port = config.listenPort
  numDatabases : started.world.server.numDatabases = serverDatabases config.databases
  db : started.world.server.db = lexidbNew boot.db started.world.server.numDatabases
  heap : started.world.heap = fun _ => none

theorem Config.addrStr_near (mem : Mem) (near : ∀ lg, config.address.strData ≠ .lg lg) : ∃ addr, config.addrStr mem = .ok addr := by
  unfold Config.addrStr
  split
  · exact ⟨_, rfl⟩
  · split
    · rename_i lg same
      exact absurd same (near lg)
    · exact ⟨_, rfl⟩

/-- Whoever has started has users, and is launched. -/
theorem Boot.Opens.launched {started : Started α} (opens : boot.Opens env fds config started) (grants : boot.Grants)
    (few : config.users.len ≤ 2 ^ 32) : started.world.Launched env config := by
  obtain ⟨address, rounds, last, _, added⟩ := opens.added
  obtain ⟨file, fuel, _, short, parsed⟩ := opens.configures
  obtain ⟨clients, _, listed⟩ := opens.clients
  obtain ⟨opened, api, _, open_, registered⟩ := opens.ev
  have some_ : 0 < config.users.len := by
    by_contra none_
    obtain ⟨from_, new⟩ := parseConfig_nobody parsed (by omega)
    rw [new] at added
    obtain ⟨_, users, other, refused⟩ := addUsers_nobody env boot.add address from_
    have total := addUsers_total env grants.add (vecNew_valid from_) (show 0 + 2 < sizeMod by decide) (fun _ => ⟨from_, rfl⟩) address
    cases total.mono.ok_unique added (refused 0)
  refine
    { clients := ⟨clients, listed⟩
      heap := opens.heap
      listening := by rw [open_]; simp
      registered := ⟨boot.api, api, registered⟩
      counted := opens.numDatabases
      made := ⟨boot.db, opens.db⟩
      accepted := ⟨boot.supply, fuel, _, grants.supply, by unfold vstrMaxLargeSize at short; unfold sizeMod; omega, parsed⟩
      added := ⟨boot.add, rounds, address, last, grants.add, added⟩
      some_ := some_
      few := few }

/-- No two users of the configuration have one name. -/
def Config.Distinct (config : Config) : Prop :=
  config.users.elems.Pairwise fun user other => user.name.bytes ≠ other.name.bytes

/-- What the system and the configuration must be for a server to start. -/
structure Boot.Accepts (boot : Boot α) (config : Config) : Prop where
  reuseAddr : boot.reuseAddr = true
  configures : boot.Configures config
  level : ∃ level, config.level = .ok level
  bind : boot.bind (parseAddr config.listenAddr) config.listenPort = true
  listen : boot.listen serverBacklog = true
  users : boot.users.isSome
  some_ : 0 < config.users.len
  distinct : config.Distinct
  executable : boot.executablePath.isSome
  clients : boot.clients.isSome
  ev : ∃ sfd opened api, boot.socket = some sfd ∧ boot.ev = some (opened, api) ∧
    (evAddEvent boot.api (evNew api serverBacklog) sfd evRead .serverAccept serverData).isSome

/-- Files that are short enough for an `int` to count their users. -/
def Boot.Short (boot : Boot α) : Prop := ∀ file, boot.opened = .ok file → file.length ≤ 2 ^ 32

theorem Boot.Configures.few (grants : boot.Grants) (short : boot.Short) (configures : boot.Configures config) :
    config.Sound ∧ config.users.len ≤ 2 ^ 32 := by
  obtain ⟨file, fuel, opening, _, parsed⟩ := configures
  obtain ⟨sound, count⟩ := parseConfig_sound grants.supply parsed
  have shorter := (List.takeWhile_sublist (p := fileByte) (l := file)).length_le
  have within := short file opening
  exact ⟨sound, by omega⟩

/-- Whoever has started was accepted. -/
theorem Boot.Opens.accepts {started : Started α} (opens : boot.Opens env fds config started) (grants : boot.Grants) (short : boot.Short) :
    boot.Accepts config := by
  obtain ⟨sound, few⟩ := opens.configures.few grants short
  have launched := opens.launched grants few
  obtain ⟨address, rounds, last, users, added⟩ := opens.added
  obtain ⟨opened, api, back, _, registered⟩ := opens.ev
  obtain ⟨_, repeated⟩ := addUsers_keeps grants.add sound.valid launched.some_ (by unfold sizeMod; omega) sound.named added
  refine
    { reuseAddr := opens.reuseAddr
      configures := opens.configures
      level := ⟨_, opens.level⟩
      bind := opens.bind
      listen := opens.listen
      users := by rw [users]; rfl
      some_ := launched.some_
      distinct := ?_
      executable := opens.executable
      clients := ?_
      ev := ⟨_, opened, api, opens.socket, back, by rw [registered]; rfl⟩ }
  · refine List.pairwise_iff_getElem.mpr fun k j inner outer earlier same => ?_
    have late := repeated j k _ _ earlier (List.getElem?_eq_getElem outer) (List.getElem?_eq_getElem inner) same
    rw [sound.valid.length] at outer
    omega
  · obtain ⟨clients, made, _⟩ := opens.clients
    rw [made]
    rfl

/-- Users of distinct names are all added. -/
theorem Config.Distinct.added (distinct : config.Distinct) (env : Env) {mem : Nat → Mem} (granted : ∀ i, (mem i).Grants) (sound : config.Sound)
    (some_ : 0 < config.users.len) (bound : config.users.len + 2 < sizeMod) (address : Nat) :
    ∃ fuel users last, addUsers env mem fuel (vecNew address) config.users = .ok (0, users, last) := by
  obtain ⟨users, last, done⟩ := addUsersLoop_accepts granted sound.valid bound sound.named (fun j k user other earlier late early same => by
    obtain ⟨outer, rfl⟩ := List.getElem?_eq_some_iff.mp late
    obtain ⟨inner, rfl⟩ := List.getElem?_eq_some_iff.mp early
    exact absurd same (List.pairwise_iff_getElem.mp distinct k j inner outer earlier)) (config.users.len + 1) 0 _ _ _ (Nat.zero_le _) (by omega)
    (adding_start env mem some_ bound address)
  exact ⟨_, users, last, done⟩

/-- Whoever is accepted starts. -/
theorem Boot.Accepts.starts (accepts : boot.Accepts config) (env : Env) (confFilePath : Vstr) (fds : Finset Nat)
    (grants : boot.Grants) (short : boot.Short) (near : ∀ lg, config.address.strData ≠ .lg lg) :
    ∃ fuel left started, serverNew env boot fuel confFilePath fds = .ok (left, .ok started) := by
  obtain ⟨sound, few⟩ := accepts.configures.few grants short
  obtain ⟨file, parseRounds, opening, fits, parsed⟩ := accepts.configures
  obtain ⟨level, known⟩ := accepts.level
  obtain ⟨address, users⟩ := Option.isSome_iff_exists.mp accepts.users
  obtain ⟨path, executable⟩ := Option.isSome_iff_exists.mp accepts.executable
  obtain ⟨clients, made⟩ := Option.isSome_iff_exists.mp accepts.clients
  obtain ⟨sfd, opened, api, socket, back, event⟩ := accepts.ev
  obtain ⟨ev, registered⟩ := Option.isSome_iff_exists.mp event
  have bound : config.users.len + 2 < sizeMod := by
    unfold sizeMod
    omega
  obtain ⟨rounds, kept, last, added⟩ := accepts.distinct.added env grants.add sound accepts.some_ bound address
  have front := readFile_front grants.file (vstrData confFilePath) file (Nat.lt_succ_self file.length)
  rw [if_pos fits, ← opening] at front
  obtain ⟨contents, read, _, bytes⟩ := front
  obtain ⟨osName, formatted⟩ := vstrFormat_granted grants.mem (show boot.osName ≠ [] by simp [Boot.osName]) grants.short
  obtain ⟨addr, told⟩ := config.addrStr_near boot.mem near
  rw [← bytes] at parsed
  have walked := addUsers_total env grants.add sound.valid bound
    (fun none_ => absurd none_ (Nat.pos_iff_ne_zero.mp accepts.some_)) address
  -- fuel that is enough for each of the three loops
  have readEnough := (readFile_total (vstrData confFilePath) boot.opened).mono.ok_le read
    (show file.length + 1 ≤ file.length + 1 + parseRounds + rounds by omega)
  have parsedEnough := (parseConfig_total grants.supply contents.bytes).mono.ok_le parsed
    (show parseRounds ≤ file.length + 1 + parseRounds + rounds by omega)
  have addedEnough := walked.mono.ok_le added (show rounds ≤ file.length + 1 + parseRounds + rounds by omega)
  refine ⟨file.length + 1 + parseRounds + rounds, ?_⟩
  simp only [serverNew, socket, accepts.reuseAddr, readEnough, parsedEnough, known, accepts.bind, accepts.listen, users, addedEnough,
    executable, formatted, told, made, back, registered, ok_bind]
  exact ⟨_, _, rfl⟩

end Starting

end LexiDB
