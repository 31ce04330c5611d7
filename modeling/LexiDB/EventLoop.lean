import LexiDB.Server
import LexiDB.Ev

/-! The callbacks of server.c and the loop body of ev.c that runs them. -/

namespace LexiDB

open Lib

/-- The functions the server registers with `ev_add_event`. -/
inductive EvFileFn where
  | serverAccept
  | readFromClient
  | writeToClient
  deriving DecidableEq

/-- The process: the server, its live clients, the open descriptors and the
event table. -/
structure World (α : Type) where
  server : Server
  heap : Heap
  fds : Finset Nat
  ev : Ev EvFileFn α

/-- What the socket has for `read`: bytes, of which one call takes as many as it
asks for, the end of the stream, or an error other than EWOULDBLOCK. -/
inductive Arrival where
  | data (bytes : List UInt8)
  | eof
  | fail

/-- What one `write` returns. -/
inductive WriteOutcome where
  | sent (amount : Nat)
  | again
  | fail

/-- What the system answers while one callback runs. Where `arrivals` ends, `read`
reports EWOULDBLOCK. -/
structure Kernel (α : Type) where
  accept : Option Nat
  nonblocking : Bool
  addr : Nat
  port : Nat
  now : Nat
  client : Option Nat
  readBuf : Bool
  push : Option Nat
  api : EvApi EvFileFn α
  arrivals : List Arrival
  grow : Nat → Bool
  ans : Answers
  fuel : Nat
  writes : List WriteOutcome

def serverBacklog : Nat := 10

def clientReadBufCap : Nat := 4096

/-- The pointer to the server, which every callback is registered with. -/
def serverData : Nat := 0

variable {α : Type}

section Clients

/-- `create_client`: the pointer and what it points to. -/
def createClient (k : Kernel α) (fd : Nat) : Option (Nat × Client) :=
  match k.client with
  | none => none
  | some pointer =>
    if k.readBuf then
      some (pointer, {
        fd := fd, addr := k.addr, port := k.port, flags := 0, readBuf := List.replicate clientReadBufCap 0, readPos := 0,
        readCap := clientReadBufCap, writeBuf := [], writeSize := 0, databaseNum := 0, builder := builderNew,
        user := .zero, timeConnected := k.now })
    else none

/-- `client_free`: the descriptor is closed with it. -/
def clientFree (w : World α) (pointer : Nat) (c : Client) : World α :=
  { w with heap := Function.update w.heap pointer none, fds := w.fds.erase c.fd }

/-- `vec_find` with `client_compare`, which follows each pointer up to the first
client of this fd. -/
def findClient (heap : Heap) (fd : Nat) : Nat → List Nat → Except Halt (Option (Nat × Nat × Client))
  | _, [] => .ok none
  | i, pointer :: rest =>
    match heap pointer with
    | none => .error .bounds
    | some c => if fd = c.fd then .ok (some (i, pointer, c)) else findClient heap fd (i + 1) rest

end Clients

section Read

def reallocClientReadBuf (grow : Nat → Bool) (c : Client) : Option Client :=
  let newCap := c.readCap * 2 % sizeMod
  if grow newCap then
    some { c with readBuf := c.readBuf.take c.readPos ++ List.replicate (newCap - c.readPos) 0, readCap := newCap }
  else none

/-- The bytes `read` stores behind `read_pos`. -/
def Client.received (c : Client) (bytes : List UInt8) : Client :=
  { c with
    readBuf := c.readBuf.take c.readPos ++ bytes ++ c.readBuf.drop (c.readPos + bytes.length)
    readPos := c.readPos + bytes.length }

/-- How the loop of `read_from_client` ends. -/
inductive ReadEnd where
  | burst
  | closed
  | failed
  deriving DecidableEq

def readLoop (grow : Nat → Bool) : Nat → List Arrival → Client → Except Halt (ReadEnd × Client)
  | 0, _, _ => .error .fuel
  | fuel + 1, arrivals, c =>
    match (if c.readPos ≥ c.readCap then reallocClientReadBuf grow c else some c) with
    | none => .ok (.closed, c)
    | some c =>
      match arrivals with
      | [] => .ok (.burst, c)
      | .fail :: _ => .ok (.failed, c)
      | .eof :: _ => .ok (.closed, c)
      | .data bytes :: rest =>
        let part := bytes.take (c.readCap - c.readPos)
        -- zero bytes read, asked for or not, are taken for the end of the stream
        if part = [] then .ok (.closed, c)
        else if part.length = bytes.length then readLoop grow fuel rest (c.received part)
        else readLoop grow fuel (.data (bytes.drop part.length) :: rest) (c.received part)

/-- As many rounds as the loop can take: one for each byte, and a last one. -/
def Arrival.rounds : List Arrival → Nat
  | [] => 1
  | .data bytes :: rest => bytes.length + rounds rest
  | _ :: _ => 1

/-- The reply of the builder is handed over to `write_to_client`. -/
def Client.handOff (c : Client) : Client := { c with writeBuf := vstrData c.builder, writeSize := vstrLen c.builder }

/-- `memset(c->read_buf, 0, c->read_pos)` and the position back to the start. -/
def Client.cleared (c : Client) : Client :=
  { c with readBuf := List.replicate c.readPos 0 ++ c.readBuf.drop c.readPos, readPos := 0 }

end Read

section Write

/-- One accepted `write`: where in `write_buf` it started and how many bytes it
took. -/
structure Chunk where
  start : Nat
  amount : Nat
  deriving DecidableEq

/-- The loop of `write_to_client`: whether all was sent, and what `write` took.
Every call passes the start of the buffer. -/
def writeLoop (size : Nat) : List WriteOutcome → Nat → Except Halt (Bool × List Chunk)
  | writes, bytesSent =>
    if bytesSent < size then
      match writes with
      | [] => .error .fuel
      | .again :: _ => .ok (false, [])
      | .fail :: _ => .ok (false, [])
      | .sent amount :: rest => do
        let (done, chunks) ← writeLoop size rest (bytesSent + amount)
        return (done, ⟨0, amount⟩ :: chunks)
    else .ok (true, [])

end Write

namespace World

variable (env : Env) (k : Kernel α) (w : World α)

def serverAccept : World α :=
  match k.accept with
  | none => w
  | some cfd =>
    let w := { w with fds := insert cfd w.fds }
    if k.nonblocking then
      match createClient k cfd with
      | none => w
      | some (pointer, client) =>
        let w := { w with heap := Function.update w.heap pointer (some client) }
        let (add, clients) := vecPush k.push w.server.clients pointer
        if add = -1 then w
        else
          let w := { w with server := { w.server with clients := clients } }
          match evAddEvent k.api w.ev cfd evRead .readFromClient serverData with
          | none => clientFree w pointer client
          | some ev => { w with ev := ev }
    else w

def readFromClient (fd : Nat) (mask : UInt32) : Except Halt (World α) := do
  match ← findClient w.heap fd 0 w.server.clients.elems with
  | none => return { w with ev := evDeleteEvent k.api w.ev fd evRead, fds := w.fds.erase fd }
  | some (found, pointer, c) =>
    let (ended, c) ← readLoop k.grow (Arrival.rounds k.arrivals) k.arrivals c
    match ended with
    | .closed =>
      let (_, clients) := vecRemoveAt w.server.clients found
      let w := { w with server := { w.server with clients := clients }, ev := evDeleteEvent k.api w.ev fd mask }
      return clientFree w pointer c
    | .failed => return { w with heap := Function.update w.heap pointer (some c) }
    | .burst =>
      let (s, c) ← executeCmd env k.ans k.fuel w.server c
      let c := c.handOff
      match evAddEvent k.api w.ev fd evWrite .writeToClient serverData with
      | none => return { w with server := s, heap := Function.update w.heap pointer (some c) }
      | some ev => return { w with server := s, ev := ev, heap := Function.update w.heap pointer (some c.cleared) }

/-- `write_to_client`, with what `write` took of `write_buf`. -/
def writeToClient (fd : Nat) (mask : UInt32) : Except Halt (World α × List Chunk) := do
  match ← findClient w.heap fd 0 w.server.clients.elems with
  | none => return ({ w with ev := evDeleteEvent k.api w.ev fd mask, fds := w.fds.erase fd }, [])
  | some (_, pointer, c) =>
    let (done, chunks) ← writeLoop c.writeSize k.writes 0
    if done then
      let c := { c with builder := builderReset c.builder }
      return ({ w with ev := evDeleteEvent k.api w.ev fd evWrite, heap := Function.update w.heap pointer (some c) }, chunks)
    else return (w, chunks)

/-- A call through a pointer of the event table. -/
def callback (fn : Option EvFileFn) (fd : Nat) (mask : UInt32) : Except Halt (World α) :=
  match fn with
  | none => .error .bounds
  | some .serverAccept => .ok (w.serverAccept k)
  | some .readFromClient => w.readFromClient env k fd mask
  | some .writeToClient => do
    let (w, _) ← w.writeToClient k fd mask
    return w

/-- A guarded call, and whether any callback has fired by then. -/
def callIf (guard : Prop) [Decidable guard] (fn : Option EvFileFn) (fd : Nat) (mask : UInt32) (fired : Bool) :
    Except Halt (World α × Bool) :=
  if guard then do
    let w ← w.callback env k fn fd mask
    return (w, true)
  else return (w, fired)

/-- The loop body of `ev_process_events` for one fired event. -/
def processEvent (fd : Nat) (mask : UInt32) : Except Halt (World α) := do
  let e := w.ev.entry fd
  let invert := e.mask &&& evBoth ≠ 0
  let (w, fired) ← w.callIf env k (¬ invert ∧ e.mask &&& mask &&& evRead ≠ 0) e.readFn fd mask false
  let e := w.ev.entry fd
  let (w, fired) ← w.callIf env k (e.mask &&& mask &&& evWrite ≠ 0 ∧ (fired = false ∨ e.writeFn ≠ e.readFn))
    e.writeFn fd mask fired
  let e := w.ev.entry fd
  let (w, _) ← w.callIf env k (invert ∧ e.mask &&& mask &&& evRead ≠ 0 ∧ (fired = false ∨ e.writeFn ≠ e.readFn))
    e.readFn fd mask fired
  return w

end World

end LexiDB
