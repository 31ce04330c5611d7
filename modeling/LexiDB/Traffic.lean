import LexiDB.Requests
import LexiDB.QueueInvariant

/-! Any number of clients sending requests to one server, in any order. -/

namespace LexiDB

open Lib

/-- The server, and the database each client stands on between its requests. -/
structure Hub where
  server : Server
  selected : Nat → Nat

/-- Client `who` has a request in its read buffer, and while it is handled every
allocation is granted, that of a queue node at an address no queue has in use. -/
structure Hub.Asks (env : Env) (h : Hub) (who : Nat) (r : Request) : Prop where
  before : r.before = h.server
  selected : r.client.databaseNum = h.selected who
  grants : r.ans.Grants
  unused : ∀ db ∈ h.server.db, ∀ node, r.ans.node = some node → db.queue.nodes node = none
  parsed : parse env r.ans.supply r.fuel (r.client.readBuf.take r.client.readPos) = .ok r.cmd

/-- `execute_cmd` returns. -/
def Request.Returns (env : Env) (r : Request) : Prop :=
  executeCmd env r.ans r.fuel r.before r.client = .ok (r.after, r.reply)

/-- One request of one client. -/
structure Hub.Serves (env : Env) (h : Hub) (e : Nat × Request) (after : Hub) : Prop where
  asks : h.Asks env e.1 e.2
  returns : e.2.Returns env
  left : after = ⟨e.2.after, Function.update h.selected e.1 e.2.reply.databaseNum⟩

/-- The databases as `server_new` makes them, and every client where
`create_client` puts it. -/
structure Hub.Fresh (h : Hub) : Prop where
  databases : ∃ mem, h.server.db = lexidbNew mem h.server.numDatabases
  positive : 0 < h.server.numDatabases
  selected : ∀ who, h.selected who = 0

/-- Every client stands on a database there is. -/
structure Hub.InRange (h : Hub) : Prop where
  size : h.server.db.length = h.server.numDatabases
  positive : 0 < h.server.numDatabases
  selected : ∀ who, h.selected who < h.server.numDatabases

theorem lexidbNew_getElem {mem : Nat → LexidbMem} {db : Lexidb} (found : (lexidbNew mem n)[d]? = some db) :
    db = ⟨htNew (mem d).dictSeed (mem d).dictTable, setNew (mem d).setSeed, queueNew, vecNew (mem d).vec⟩ := by
  rw [lexidbNew, List.getElem?_map] at found
  obtain ⟨i, listed, rfl⟩ := Option.map_eq_some_iff.mp found
  obtain ⟨_, same⟩ := List.getElem?_eq_some_iff.mp listed
  rw [← same, List.getElem_range]

theorem Hub.Fresh.inRange {h : Hub} (fresh : h.Fresh) : h.InRange := by
  obtain ⟨mem, made⟩ := fresh.databases
  refine ⟨by simp [made, lexidbNew], fresh.positive, ?_⟩
  intro who
  rw [fresh.selected who]
  exact fresh.positive

section Steps

variable {env : Env} {h after : Hub}

/-- What a request leaves: the selected database operated on, the client on the
database it selects. -/
theorem Hub.Serves.effect (serves : h.Serves env e after) :
    (∃ n, after.server = { h.server with
        db := h.server.db.modify (h.selected e.1) ((e.2.client.obeys e.2.cmd).operate env e.2.ans) }.recount n) ∧
      after.selected = Function.update h.selected e.1
        ((e.2.client.obeys e.2.cmd).selects h.server.numDatabases (h.selected e.1)) := by
  obtain ⟨⟨n, operated⟩, moved⟩ := executeCmd_obeys serves.asks.parsed serves.returns
  rw [serves.asks.before, serves.asks.selected] at operated moved
  rw [serves.left]
  exact ⟨⟨n, operated⟩, by rw [moved]⟩

theorem Hub.InRange.step (inRange : h.InRange) (serves : h.Serves env e after) : after.InRange := by
  obtain ⟨⟨n, operated⟩, moved⟩ := serves.effect
  refine ⟨?_, ?_, ?_⟩
  · rw [operated]
    simpa [Server.recount] using inRange.size
  · rw [operated]
    exact inRange.positive
  · intro who
    have inside : after.selected who < h.server.numDatabases := by
      rw [moved]
      by_cases same : who = e.1
      · subst same
        rw [Function.update_self]
        exact Cmd.selects_lt (inRange.selected e.1)
      · rw [Function.update_of_ne same]
        exact inRange.selected who
    rw [operated]
    exact inside

theorem Hub.InRange.found (inRange : h.InRange) (who : Nat) : ∃ db, h.server.db[h.selected who]? = some db := by
  have inside := inRange.selected who
  rw [← inRange.size] at inside
  exact ⟨_, List.getElem?_eq_getElem inside⟩

theorem inRange_of_run {start : Hub} (fresh : start.Fresh) (run : Run (Hub.Serves env) start history h) : h.InRange := by
  refine run.invariant (fun _ h => h.InRange) fresh.inRange ?_
  intro _ h e after inRange serves
  exact inRange.step serves

/-- Whatever the clients send, the dictionaries stay well placed. -/
theorem dictsPlaced_of_hub {start : Hub} (fresh : start.Fresh) (run : Run (Hub.Serves env) start history h) :
    h.server.DictsPlaced env := by
  refine run.invariant (fun _ h => h.server.DictsPlaced env) ?_ ?_
  · obtain ⟨mem, made⟩ := fresh.databases
    intro db member
    obtain ⟨d, found⟩ := List.mem_iff_getElem?.mp member
    rw [made] at found
    rw [lexidbNew_getElem found]
    exact htNew_placed _ _ _
  · intro _ h e after placed serves
    rw [serves.left]
    rw [← serves.asks.before] at placed
    exact placed.step serves.returns

end Steps

end LexiDB
