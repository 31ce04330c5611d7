import LexiDB.Registry

/-! What one client's stream becomes: one execution per burst, on the bytes of that
burst and no others. -/

namespace LexiDB

open Lib

/-- What the events of one connection do: a burst arrives in these pieces before
`read` reports EWOULDBLOCK, or the reply has been written. -/
inductive SessionEvent where
  | burst (chunks : List (List UInt8)) (ans : Answers) (fuel : Nat)
  | written

/-- A command that was executed and what it appended to the builder. -/
structure Execution where
  cmd : Cmd
  reply : List UInt8

section Model

variable (env : Env)

/-- `execute_cmd` on what the read buffer holds, with the reply handed over. -/
def respond (ans : Answers) (fuel : Nat) (s : Server) (c : Client) : Except Halt (Execution × Server × Client) := do
  let cmd ← parse env ans.supply fuel (c.readBuf.take c.readPos)
  let (s, d) ← executeCmd env ans fuel s c
  return (⟨cmd, d.builder.bytes.drop c.builder.bytes.length⟩, s, d.handOff)

/-- `read_from_client` for one burst, every allocation of the read buffer granted and
the write event registered. -/
def serveBurst (chunks : List (List UInt8)) (ans : Answers) (fuel : Nat) (s : Server) (c : Client) :
    Except Halt (Option Execution × Server × Client) := do
  let arrivals := chunks.map Arrival.data
  let (ended, c) ← readLoop (fun _ => true) (Arrival.rounds arrivals) arrivals c
  if ended = .burst then
    let (execution, s, c) ← respond env ans fuel s c
    return (some execution, s, c.cleared)
  else return (none, s, c)

/-- The executions of a session, and where it ends. -/
def session : List SessionEvent → Server → Client → Except Halt (List Execution × Server × Client)
  | [], s, c => .ok ([], s, c)
  | .written :: rest, s, c => session rest s { c with builder := builderReset c.builder }
  | .burst chunks ans fuel :: rest, s, c => do
    let (execution, s, c) ← serveBurst env chunks ans fuel s c
    let (more, s, c) ← session rest s c
    return (execution.toList ++ more, s, c)

/-- One execution for each burst, on exactly its bytes. -/
def onePerBurst : List SessionEvent → Server → Client → Except Halt (List Execution × Server × Client)
  | [], s, c => .ok ([], s, c)
  | .written :: rest, s, c => onePerBurst rest s { c with builder := builderReset c.builder }
  | .burst chunks ans fuel :: rest, s, c => do
    let (execution, s, c) ← respond env ans fuel s (c.buffered chunks.flatten chunks.flatten.length chunks.flatten.length)
    let (more, s, c) ← onePerBurst rest s c
    return (execution :: more, s, c)

end Model

/-- The bytes of a burst, in however many pieces. -/
def SessionEvent.whole : SessionEvent → SessionEvent
  | .burst chunks ans fuel => .burst [chunks.flatten] ans fuel
  | .written => .written

/-- `read` hands out at least one byte at a time, and no buffer takes half the
address space. -/
def SessionEvent.Possible : SessionEvent → Prop
  | .burst chunks _ _ => [] ∉ chunks ∧ chunks.flatten.length < sizeMod / 2
  | .written => True

/-- The requests of a session, each with its answers and fuel. -/
def requests : List SessionEvent → List (List UInt8 × Answers × Nat)
  | [] => []
  | .written :: rest => requests rest
  | .burst chunks ans fuel :: rest => (chunks.flatten, ans, fuel) :: requests rest

/-- All but the read buffer. -/
def unbuffered (result : List Execution × Server × Client) : List Execution × Server × Client :=
  (result.1, result.2.1, result.2.2.buffered [] 0 0)

section Bursts

variable {env : Env}

/-- A request is answered the same wherever it lies in the read buffer. -/
theorem respond_buffered (s : Server) (c : Client) (request : readBuf.take readPos = bytes) (readCap : Nat) :
    respond env ans fuel s (c.buffered readBuf readPos readCap) =
      (respond env ans fuel s (c.buffered bytes bytes.length bytes.length)).map
        fun result => (result.1, result.2.1, result.2.2.buffered readBuf readPos readCap) := by
  have whole : bytes.take bytes.length = bytes := List.take_length
  have moved : executeCmd env ans fuel s
      ((c.buffered readBuf readPos readCap).carrying (c.buffered bytes bytes.length bytes.length)) =
      (executeCmd env ans fuel s (c.buffered bytes bytes.length bytes.length)).map
        fun result => (result.1, (c.buffered readBuf readPos readCap).carrying result.2) :=
    executeCmd_carrying s (request.trans whole.symm)
  change executeCmd env ans fuel s (c.buffered readBuf readPos readCap) = _ at moved
  simp only [respond, moved]
  simp only [Client.buffered, request, whole]
  cases parse env ans.supply fuel bytes with
  | error => rfl
  | ok cmd =>
    simp only [ok_bind]
    cases executed : executeCmd env ans fuel s { c with readBuf := bytes, readPos := bytes.length, readCap := bytes.length } with
    | error => rfl
    | ok result =>
      have connection := executeCmd_connection executed
      simp only [Except.map, ok_bind, pure_eq_ok, Except.ok.injEq, Prod.mk.injEq, true_and]
      refine ⟨rfl, ?_⟩
      rw [connection]
      rfl

/-- The request is what the last burst brought. -/
theorem session_alike (events : List SessionEvent) (possible : ∀ event ∈ events, event.Possible) :
    ∀ (s : Server) (c d : Client), c.Reading → c.readPos = 0 → (∃ readBuf readPos readCap, d = c.buffered readBuf readPos readCap) →
      (session env events s c).map unbuffered = (onePerBurst env events s d).map unbuffered := by
  induction events with
  | nil =>
    rintro s c d _ _ ⟨_, _, _, rfl⟩
    rfl
  | cons event rest ih =>
    have later : ∀ event ∈ rest, event.Possible := fun event member => possible event (List.mem_cons_of_mem _ member)
    cases event with
    | written =>
      rintro s c d reading start ⟨_, _, _, rfl⟩
      exact ih later s _ _ ⟨reading.size, reading.room, reading.positive⟩ start ⟨_, _, _, rfl⟩
    | burst chunks ans fuel =>
      rintro s c d reading start ⟨_, _, _, rfl⟩
      obtain ⟨pieces, bound⟩ : [] ∉ chunks ∧ chunks.flatten.length < sizeMod / 2 := possible _ (List.mem_cons_self ..)
      obtain ⟨e, looped, ready, request⟩ := readLoop_burst (fun _ => rfl) _ chunks c (Nat.le_refl _) pieces reading
        (by rw [start]; omega)
      obtain ⟨buf, pos, cap, rfl⟩ := readLoop_buffered _ _ _ _ _ looped
      have bytes : buf.take pos = chunks.flatten := by
        have nothing : c.request = [] := by simp [Client.request, start]
        rw [nothing] at request
        exact request
      simp only [session, onePerBurst, serveBurst, looped, ok_bind, ↓reduceIte, respond_buffered s c bytes cap,
        Client.buffered_buffered]
      cases respond env ans fuel s (c.buffered chunks.flatten chunks.flatten.length chunks.flatten.length) with
      | error => rfl
      | ok result =>
        obtain ⟨execution, t, x⟩ := result
        have empty : ((x.buffered buf pos cap).cleared).Reading :=
          Client.Reading.cleared ⟨ready.size, ready.room, ready.positive⟩
        have next := ih later t (x.buffered buf pos cap).cleared x empty rfl ⟨_, _, _, rfl⟩
        simp only [Except.map, ok_bind, pure_eq_ok]
        generalize session env rest t (x.buffered buf pos cap).cleared = left at next ⊢
        generalize onePerBurst env rest t x = right at next ⊢
        cases left with
        | error e =>
          cases right with
          | error f =>
            cases next
            rfl
          | ok second => cases next
        | ok first =>
          cases right with
          | error f => cases next
          | ok second =>
            have same := Except.ok.inj next
            simp only [unbuffered, Prod.mk.injEq] at same
            obtain ⟨executions, server, client⟩ := same
            simp only [ok_bind, unbuffered, Option.toList_some, List.singleton_append, executions, server, client]

/-- One execution per burst does not see how the burst was cut up. -/
theorem onePerBurst_whole (events : List SessionEvent) :
    ∀ (s : Server) (c : Client), onePerBurst env (events.map SessionEvent.whole) s c = onePerBurst env events s c := by
  induction events with
  | nil => exact fun _ _ => rfl
  | cons event rest ih =>
    intro s c
    cases event with
    | written => exact ih s _
    | burst chunks ans fuel => simp [SessionEvent.whole, onePerBurst, ih]

/-- The commands are those the bursts spell. -/
theorem onePerBurst_requests (events : List SessionEvent) :
    ∀ (s : Server) (c : Client) executions t d, onePerBurst env events s c = .ok (executions, t, d) →
      List.Forall₂ (fun (request : List UInt8 × Answers × Nat) execution =>
        parse env request.2.1.supply request.2.2 request.1 = .ok execution.cmd) (requests events) executions := by
  induction events with
  | nil =>
    intro s c executions t d done
    cases done
    exact .nil
  | cons event rest ih =>
    intro s c executions t d done
    cases event with
    | written => exact ih s _ _ _ _ done
    | burst chunks ans fuel =>
      obtain ⟨⟨execution, u, x⟩, answered, done⟩ := bind_eq_ok.mp done
      obtain ⟨⟨more, v, y⟩, continued, done⟩ := bind_eq_ok.mp done
      cases done
      obtain ⟨cmd, parsed, answered⟩ := bind_eq_ok.mp answered
      obtain ⟨⟨w, z⟩, _, answered⟩ := bind_eq_ok.mp answered
      cases answered
      refine .cons ?_ (ih _ _ _ _ _ continued)
      simpa only [Client.buffered, List.take_length] using parsed

/-- However each burst was cut up by `read`, the session executes one command per
burst, in order, each from the bytes of its burst alone. -/
theorem session_onePerBurst {events : List SessionEvent} {c : Client} (reading : c.Reading) (start : c.readPos = 0)
    (possible : ∀ event ∈ events, event.Possible) (s : Server) :
    (session env events s c).map unbuffered = (onePerBurst env events s c).map unbuffered ∧
      (∀ others, others.map SessionEvent.whole = events.map SessionEvent.whole → (∀ event ∈ others, event.Possible) →
        (session env others s c).map unbuffered = (session env events s c).map unbuffered) ∧
      ∀ executions t d, session env events s c = .ok (executions, t, d) →
        List.Forall₂ (fun (request : List UInt8 × Answers × Nat) execution =>
          parse env request.2.1.supply request.2.2 request.1 = .ok execution.cmd) (requests events) executions := by
  have each : ∀ others : List SessionEvent, (∀ event ∈ others, event.Possible) →
      (session env others s c).map unbuffered = (onePerBurst env others s c).map unbuffered :=
    fun others possible => session_alike others possible s c c reading start ⟨_, _, _, rfl⟩
  refine ⟨each events possible, ?_, ?_⟩
  · intro others same possibleToo
    rw [each events possible, each others possibleToo, ← onePerBurst_whole others, same, onePerBurst_whole]
  · intro executions t d done
    have mapped := each events possible
    rw [done] at mapped
    cases result : onePerBurst env events s c with
    | error e =>
      rw [result] at mapped
      cases mapped
    | ok spelled =>
      rw [result] at mapped
      have same : executions = spelled.1 := congrArg (fun result => result.1) (Except.ok.inj mapped)
      rw [same]
      exact onePerBurst_requests events s c _ _ _ result

/-- The callback does what the session says. -/
theorem readFromClient_serveBurst {k : Kernel α} {w : World α} {c d : Client} {t : Server} {ev : Ev EvFileFn α}
    (found : findClient w.heap fd 0 w.server.clients.elems = .ok (some (i, pointer, c)))
    (granted : k.grow = fun _ => true) (arrives : k.arrivals = chunks.map .data)
    (added : evAddEvent k.api w.ev fd evWrite .writeToClient serverData = some ev)
    (served : serveBurst env chunks k.ans k.fuel w.server c = .ok (some execution, t, d)) (mask : UInt32) :
    w.readFromClient env k fd mask =
      .ok { w with server := t, ev := ev, heap := Function.update w.heap pointer (some d) } := by
  obtain ⟨⟨ended, x⟩, looped, served⟩ := bind_eq_ok.mp served
  simp only at served
  split at served
  · rename_i burst
    subst burst
    obtain ⟨⟨answer, u, y⟩, answered, same⟩ := bind_eq_ok.mp served
    cases same
    obtain ⟨cmd, _, answered⟩ := bind_eq_ok.mp answered
    obtain ⟨⟨v, z⟩, executed, same⟩ := bind_eq_ok.mp answered
    cases same
    simp [World.readFromClient, found, granted, arrives, looped, executed, added]
  · cases served

end Bursts

section Runs

/-- An authenticated client that has sent nothing yet. -/
private def silent : Client :=
  ⟨5, 0, 0, authenticated, List.replicate clientReadBufCap 0, 0, clientReadBufCap, [], 0, 0, builderNew, .zero, 0⟩

private theorem silent_reading : silent.Reading := ⟨by simp [silent], Nat.zero_le _, by decide⟩

private def ping : List UInt8 := cstr "+PING\r\n"

private def arrives (chunks : List (List UInt8)) : SessionEvent := .burst chunks (.granted (fun _ _ => 1) 0) 64

private def pong : Execution := ⟨.ping, cstr "+PONG\r\n"⟩

theorem session_onePerBurst_pings :
    (session .sample [arrives [cstr "+PI", cstr "NG\r\n"], .written, arrives [ping]] listening.server silent).map unbuffered =
      (onePerBurst .sample [arrives [cstr "+PI", cstr "NG\r\n"], .written, arrives [ping]] listening.server silent).map
        unbuffered := by
  have possible : ∀ event ∈ [arrives [cstr "+PI", cstr "NG\r\n"], .written, arrives [ping]], event.Possible := by
    intro event member
    simp only [List.mem_cons, List.not_mem_nil, or_false] at member
    rcases member with rfl | rfl | rfl
    · exact ⟨by decide, by decide⟩
    · exact trivial
    · exact ⟨by decide, by decide⟩
  exact (session_onePerBurst silent_reading rfl possible listening.server).1

/-- Two frames in two bursts, and the same stream in one. -/
theorem session_counterexample :
    silent.Authenticated ∧ parse .sample (.granted fun _ _ => 1) 64 ping = .ok .ping ∧
      (requests [arrives [ping], arrives [ping]]).flatMap Prod.fst = (requests [arrives [ping ++ ping]]).flatMap Prod.fst ∧
      (session .sample [arrives [ping], arrives [ping]] listening.server silent).map Prod.fst = .ok [pong, pong] ∧
      (session .sample [arrives [ping ++ ping]] listening.server silent).map Prod.fst = .ok [pong] :=
  ⟨by decide, rfl, by decide, rfl, rfl⟩

end Runs

end LexiDB
