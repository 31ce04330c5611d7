import LexiDB.Traffic

/-! The vec of every database as a stack and its queue as a queue, whichever
clients use them. -/

namespace LexiDB

open Lib

/-- What every database has on its stack, top last, and in its queue, next first,
with the values handed out so far. -/
structure Shelves where
  stack : Nat → List Object
  queue : Nat → List Object
  popped : Nat → List Object
  dequed : Nat → List Object

/-- What a command on database `d` makes of the shelves. -/
def Shelves.act (a : Shelves) (d : Nat) : Cmd → Shelves
  | .push value => { a with stack := Function.update a.stack d (a.stack d ++ [value]) }
  | .pop =>
    { a with
      stack := Function.update a.stack d (a.stack d).dropLast
      popped := Function.update a.popped d (a.popped d ++ (a.stack d).getLast?.toList) }
  | .enque value => { a with queue := Function.update a.queue d (a.queue d ++ [value]) }
  | .deque =>
    { a with
      queue := Function.update a.queue d (a.queue d).tail
      dequed := Function.update a.dequed d (a.dequed d ++ (a.queue d).head?.toList) }
  | _ => a

/-- The shelves after these requests, on an empty start. -/
def shelve (history : List (Nat × Request)) : Shelves :=
  history.foldl (fun a e => a.act e.2.client.databaseNum (e.2.client.obeys e.2.cmd))
    ⟨fun _ => [], fun _ => [], fun _ => [], fun _ => []⟩

def Cmd.pushes : Cmd → Option Object
  | .push value => some value
  | _ => none

def Cmd.enques : Cmd → Option Object
  | .enque value => some value
  | _ => none

/-- The values pushed on database `d`, in the order of the requests. -/
def pushedOn (d : Nat) (history : List (Nat × Request)) : List Object :=
  history.filterMap fun e => if e.2.client.databaseNum = d then (e.2.client.obeys e.2.cmd).pushes else none

/-- The values enqued on database `d`, in the order of the requests. -/
def enquedOn (d : Nat) (history : List (Nat × Request)) : List Object :=
  history.filterMap fun e => if e.2.client.databaseNum = d then (e.2.client.obeys e.2.cmd).enques else none

/-- The vec and the queue hold exactly these values. -/
structure Lexidb.Holds (db : Lexidb) (stack queue : List Object) : Prop where
  valid : db.vec.Valid
  stack : db.vec.elems = stack
  queue : ∃ cells, db.queue.Holds cells ∧ cells.map Prod.snd = queue

/-- The databases hold what the shelves say, and the next POP or DEQUE of any
authenticated client is answered with the value they yield. -/
structure Hub.Shelved (env : Env) (h : Hub) (a : Shelves) : Prop where
  holds : ∀ d (db : Lexidb), h.server.db[d]? = some db → db.Holds (a.stack d) (a.queue d)
  pop : ∀ who r, h.Asks env who r → r.client.Authenticated → r.cmd = .pop → ∃ s,
    executeCmd env r.ans r.fuel r.before r.client =
      replyObject env r.ans r.fuel s r.client (a.stack (h.selected who)).getLast?
  deque : ∀ who r, h.Asks env who r → r.client.Authenticated → r.cmd = .deque → ∃ s,
    executeCmd env r.ans r.fuel r.before r.client =
      replyObject env r.ans r.fuel s r.client (a.queue (h.selected who)).head?

/-- All structures but the one a command works on are left as they were. -/
def Cmd.Spares : Cmd → Lexidb → Lexidb → Prop
  | .set _ _, db, after | .del _, db, after => after = { db with dict := after.dict }
  | .push _, db, after | .pop, db, after => after = { db with vec := after.vec }
  | .enque _, db, after | .deque, db, after => after = { db with queue := after.queue }
  | .zset _, db, after | .zdel _, db, after => after = { db with set := after.set }
  | _, db, after => after = db

/-- A request leaves the other databases alone, and the other structures of its
own. -/
structure Request.Confined (r : Request) : Prop where
  others : ∀ d, d ≠ r.client.databaseNum → r.after.db[d]? = r.before.db[d]?
  own : ∀ db after, r.before.db[r.client.databaseNum]? = some db → r.after.db[r.client.databaseNum]? = some after →
    (r.client.obeys r.cmd).Spares db after

section Steps

variable {env : Env} {ans : Answers}

theorem Cmd.operate_spares (cmd : Cmd) (db : Lexidb) : cmd.Spares db (cmd.operate env ans db) := by
  cases cmd <;> rfl

/-- The operation of a command on its database is the action on the shelves. -/
theorem Lexidb.Holds.operate {db : Lexidb} {a : Shelves} (holds : db.Holds (a.stack d) (a.queue d)) (grants : ans.Grants)
    (unused : ∀ node, ans.node = some node → db.queue.nodes node = none) (cmd : Cmd) :
    (cmd.operate env ans db).Holds ((a.act d cmd).stack d) ((a.act d cmd).queue d) := by
  obtain ⟨cells, queue, values⟩ := holds.queue
  cases cmd with
  | push value =>
    obtain ⟨after, pushed, valid, elems⟩ := vecPush_spec holds.valid (fun _ => grants.vec) value
    refine ⟨?_, ?_, cells, queue, values⟩
    · simpa [Cmd.operate, pushed] using valid
    · simp [Cmd.operate, pushed, Shelves.act, elems, holds.stack]
  | pop =>
    obtain ⟨_, valid, elems⟩ := vecPop_spec holds.valid
    refine ⟨valid, ?_, cells, queue, values⟩
    simpa [Cmd.operate, Shelves.act, holds.stack] using elems
  | enque value =>
    obtain ⟨node, granted⟩ := Option.isSome_iff_exists.mp grants.node
    obtain ⟨after, linked, longer⟩ := queueEnque_spec queue (unused node granted) value
    refine ⟨holds.valid, holds.stack, cells ++ [(node, value)], ?_, ?_⟩
    · simpa [Cmd.operate, granted, linked] using longer
    · simp [Shelves.act, values]
  | deque =>
    refine ⟨holds.valid, holds.stack, ?_⟩
    cases cells with
    | nil =>
      refine ⟨[], ?_, ?_⟩
      · simpa [Cmd.operate, queueDeque_empty queue] using queue
      · simp [Shelves.act, ← values]
    | cons cell cells =>
      obtain ⟨after, taken, rest⟩ := queueDeque_spec queue
      refine ⟨cells, ?_, ?_⟩
      · simpa [Cmd.operate, taken] using rest
      · simp [Shelves.act, ← values]
  | _ => exact ⟨holds.valid, holds.stack, cells, queue, values⟩

theorem Shelves.act_other (a : Shelves) (cmd : Cmd) (other : e ≠ d) :
    (a.act d cmd).stack e = a.stack e ∧ (a.act d cmd).queue e = a.queue e ∧
      (a.act d cmd).popped e = a.popped e ∧ (a.act d cmd).dequed e = a.dequed e := by
  cases cmd <;> simp [Shelves.act, other]

theorem shelve_concat (history : List (Nat × Request)) (e : Nat × Request) :
    shelve (history ++ [e]) = (shelve history).act e.2.client.databaseNum (e.2.client.obeys e.2.cmd) := by
  simp [shelve]

section Holding

variable {h after : Hub} {a : Shelves} (inRange : h.InRange)
  (stored : ∀ d (db : Lexidb), h.server.db[d]? = some db → db.Holds (a.stack d) (a.queue d))
include stored

theorem Hub.Serves.holds {e : Nat × Request} (serves : h.Serves env e after) :
    ∀ d (db : Lexidb), after.server.db[d]? = some db →
      db.Holds ((a.act e.2.client.databaseNum (e.2.client.obeys e.2.cmd)).stack d)
        ((a.act e.2.client.databaseNum (e.2.client.obeys e.2.cmd)).queue d) := by
  obtain ⟨⟨n, operated⟩, _⟩ := serves.effect
  intro d db found
  rw [serves.asks.selected]
  have source : (h.server.db.modify (h.selected e.1) ((e.2.client.obeys e.2.cmd).operate env e.2.ans))[d]? = some db := by
    rw [operated] at found
    exact found
  by_cases own : h.selected e.1 = d
  · subst own
    rw [List.getElem?_modify_eq] at source
    obtain ⟨old, before, rfl⟩ := Option.map_eq_some_iff.mp source
    exact (stored _ old before).operate serves.asks.grants (serves.asks.unused old (List.mem_of_getElem? before)) _
  · rw [List.getElem?_modify_ne _ _ own] at source
    obtain ⟨stack, queue, _, _⟩ := a.act_other (e.2.client.obeys e.2.cmd) (Ne.symm own)
    rw [stack, queue]
    exact stored d db source

include inRange

theorem Hub.InRange.shelved : h.Shelved env a := by
  refine ⟨stored, ?_, ?_⟩
  · intro who r asks known pop
    obtain ⟨db, found⟩ := inRange.found who
    obtain ⟨top, _, _⟩ := vecPop_spec (stored _ db found).valid
    rw [(stored _ db found).stack] at top
    rw [executeCmd_authenticated known (by simp [pop, Cmd.type]) asks.parsed, asks.before, pop]
    simp only [dispatch, executePopCommand, asks.selected, onDb_found found, ok_bind, top]
    exact ⟨_, rfl⟩
  · intro who r asks known deque
    obtain ⟨db, found⟩ := inRange.found who
    obtain ⟨cells, queue, values⟩ := (stored _ db found).queue
    have next : (queueDeque db.queue).1 = (a.queue (h.selected who)).head? := by
      cases cells with
      | nil => simp [queueDeque_empty queue, ← values]
      | cons cell cells =>
        obtain ⟨after, taken, _⟩ := queueDeque_spec queue
        simp [taken, ← values]
    rw [executeCmd_authenticated known (by simp [deque, Cmd.type]) asks.parsed, asks.before, deque]
    simp only [dispatch, executeDequeCommand, asks.selected, onDb_found found, ok_bind, next]
    exact ⟨_, rfl⟩

end Holding

theorem Hub.Serves.confined {h after : Hub} (serves : h.Serves env e after) : e.2.Confined := by
  obtain ⟨⟨n, operated⟩, _⟩ := executeCmd_obeys serves.asks.parsed serves.returns
  refine ⟨?_, ?_⟩
  · intro d other
    rw [operated]
    exact List.getElem?_modify_ne _ _ (Ne.symm other)
  · intro db after found left
    rw [operated] at left
    have source : (e.2.client.obeys e.2.cmd).operate env e.2.ans <$> e.2.before.db[e.2.client.databaseNum]? = some after :=
      (List.getElem?_modify_eq ..).symm.trans left
    rw [found] at source
    cases source
    exact Cmd.operate_spares _ db

/-- A command adds what it brings and takes nothing away: what leaves the stack
or the queue has been handed out. -/
theorem Shelves.act_conserves (a : Shelves) (d : Nat) (cmd : Cmd) :
    (a.popped d ++ a.stack d ++ cmd.pushes.toList).Perm ((a.act d cmd).popped d ++ (a.act d cmd).stack d) ∧
      a.dequed d ++ a.queue d ++ cmd.enques.toList = (a.act d cmd).dequed d ++ (a.act d cmd).queue d := by
  cases cmd with
  | push value => exact ⟨by simp [Cmd.pushes, Shelves.act], by simp [Cmd.enques, Shelves.act]⟩
  | pop =>
    refine ⟨?_, by simp [Cmd.enques, Shelves.act]⟩
    simp only [Cmd.pushes, Option.toList_none, List.append_nil, Shelves.act, Function.update_self]
    rcases List.eq_nil_or_concat' (a.stack d) with empty | ⟨front, top, same⟩
    · simp [empty]
    · simp only [same, List.getLast?_concat, Option.toList_some, List.dropLast_concat, List.append_assoc]
      exact List.perm_append_comm.append_left _
  | enque value => exact ⟨by simp [Cmd.pushes, Shelves.act], by simp [Cmd.enques, Shelves.act]⟩
  | deque =>
    refine ⟨by simp [Cmd.pushes, Shelves.act], ?_⟩
    simp only [Cmd.enques, Option.toList_none, List.append_nil, Shelves.act, Function.update_self]
    cases a.queue d <;> simp
  | _ => exact ⟨by simp [Cmd.pushes, Shelves.act], by simp [Cmd.enques, Shelves.act]⟩

/-- What was pushed has been popped or is still there, and the queue hands out
in the order of arrival. -/
theorem shelve_conserves (history : List (Nat × Request)) (d : Nat) :
    (pushedOn d history).Perm ((shelve history).popped d ++ (shelve history).stack d) ∧
      enquedOn d history = (shelve history).dequed d ++ (shelve history).queue d := by
  induction history using List.reverseRecOn with
  | nil => exact ⟨.refl _, rfl⟩
  | append_singleton history e ih =>
    obtain ⟨stacked, queued⟩ := ih
    rw [shelve_concat]
    by_cases own : e.2.client.databaseNum = d
    · obtain ⟨kept, order⟩ := (shelve history).act_conserves d (e.2.client.obeys e.2.cmd)
      have pushed : pushedOn d (history ++ [e]) = pushedOn d history ++ (e.2.client.obeys e.2.cmd).pushes.toList := by
        cases action : (e.2.client.obeys e.2.cmd).pushes <;> simp [pushedOn, own, action]
      have enqued : enquedOn d (history ++ [e]) = enquedOn d history ++ (e.2.client.obeys e.2.cmd).enques.toList := by
        cases action : (e.2.client.obeys e.2.cmd).enques <;> simp [enquedOn, own, action]
      rw [own, pushed, enqued, queued]
      exact ⟨(stacked.append_right _).trans kept, order⟩
    · have pushed : pushedOn d (history ++ [e]) = pushedOn d history := by simp [pushedOn, own]
      have enqued : enquedOn d (history ++ [e]) = enquedOn d history := by simp [enquedOn, own]
      obtain ⟨stack, queue, popped, dequed⟩ := (shelve history).act_other (e.2.client.obeys e.2.cmd) (Ne.symm own)
      rw [pushed, enqued, stack, queue, popped, dequed]
      exact ⟨stacked, queued⟩

/-- In every run the databases hold what the shelves say. -/
theorem holds_of_run {start h : Hub} (fresh : start.Fresh) (run : Run (Hub.Serves env) start history h) :
    ∀ d (db : Lexidb), h.server.db[d]? = some db → db.Holds ((shelve history).stack d) ((shelve history).queue d) := by
  refine run.invariant (fun history h => ∀ d (db : Lexidb), h.server.db[d]? = some db →
    db.Holds ((shelve history).stack d) ((shelve history).queue d)) ?_ ?_
  · obtain ⟨mem, made⟩ := fresh.databases
    intro d db found
    rw [made] at found
    rw [lexidbNew_getElem found]
    exact ⟨vecNew_valid _, rfl, [], queueNew_holds, rfl⟩
  · intro history h e after holds serves
    rw [shelve_concat]
    exact serves.holds holds

/-- Whatever any number of clients send in any order, every database's vec is the
stack and its queue the queue of the values sent to it. -/
theorem shelved_of_run {start h : Hub} (fresh : start.Fresh) (run : Run (Hub.Serves env) start history h) :
    h.Shelved env (shelve history) ∧ (∀ e ∈ history, e.2.Confined) ∧
      ∀ d, (pushedOn d history).Perm ((shelve history).popped d ++ (shelve history).stack d) ∧
        enquedOn d history = (shelve history).dequed d ++ (shelve history).queue d := by
  refine ⟨(inRange_of_run fresh run).shelved (holds_of_run fresh run), ?_, shelve_conserves history⟩
  refine run.invariant (fun history _ => ∀ e ∈ history, e.2.Confined) (by simp) ?_
  intro history h e after confined serves other member
  rcases List.mem_append.mp member with old | new
  · exact confined other old
  · rw [List.mem_singleton.mp new]
    exact serves.confined

end Steps

section Runs

private def hub : Hub := ⟨oneDatabase, fun _ => 0⟩

private def pushSeven : Request := sent oneDatabase 1 (cstr "*2\r\n$4\r\nPUSH\r\n:7\r\n")

private def popNext : Request := sent pushSeven.after 2 (cstr "$3\r\nPOP\r\n")

/-- What one client pushed another one pops. -/
theorem shelved_of_run_push : ∃ s,
    executeCmd .sample popNext.ans popNext.fuel popNext.before popNext.client =
      replyObject .sample popNext.ans popNext.fuel s popNext.client (some (.int 7)) := by
  have fresh : hub.Fresh := ⟨⟨fun _ => ⟨[], 0, [], 0⟩, rfl⟩, by decide, fun _ => rfl⟩
  have unused : ∀ db ∈ oneDatabase.db, ∀ node, pushSeven.ans.node = some node → db.queue.nodes node = none := by
    intro db member node _
    cases List.mem_singleton.mp member
    rfl
  have again : ∀ db ∈ pushSeven.after.db, ∀ node, popNext.ans.node = some node → db.queue.nodes node = none := by
    intro db member node _
    cases List.mem_singleton.mp member
    rfl
  have run : Run (Hub.Serves .sample) hub ([] ++ [(0, pushSeven)]) ⟨pushSeven.after, Function.update (fun _ => 0) 0 0⟩ :=
    .next .start ⟨⟨rfl, rfl, Answers.granted_grants _ _, unused, rfl⟩, rfl, rfl⟩
  have law := (shelved_of_run fresh run).1
  exact law.pop 1 popNext ⟨rfl, rfl, Answers.granted_grants _ _, again, rfl⟩ (by decide) rfl

end Runs

end LexiDB
