import LexiDB.Registry
import LexiDB.Service

/-! Every run of the event loop is one of the service: what its callbacks do to the
clients and the databases is what the occurrences they stand for do to the sessions
and the stores. -/

namespace LexiDB

open Lib

variable {α : Type}

/-- The session of a client. -/
def Client.session (c : Client) : Session := ⟨decide c.Authenticated, c.databaseNum⟩

section Commands

variable {env : Env} {ans : Answers} {s t : Server} {c d : Client} {cmd : Cmd}

theorem Client.session_obeys (c : Client) (cmd : Cmd) : c.session.obeys cmd = c.obeys cmd := by
  simp [Session.obeys, Client.obeys, session]

theorem replyOk_flags (ans : Answers) (s : Server) (c : Client) (accepted : Bool) (err : List UInt8) :
    (replyOk ans s c accepted err).2.flags = c.flags := by
  unfold replyOk
  split <;> rfl

theorem replyObject_flags (done : replyObject env ans fuel s c obj = .ok (t, d)) : d.flags = c.flags := by
  unfold replyObject at done
  split at done
  · cases done
    rfl
  · obtain ⟨res, _, done⟩ := bind_eq_ok.mp done
    cases done
    rfl

/-- Only AUTH changes the flags of a client. -/
theorem dispatch_flags (other : cmd.type ≠ .auth) (done : dispatch env ans fuel s c cmd = .ok (t, d)) : d.flags = c.flags := by
  have replied : ∀ {u : Server} {accepted : Bool} {err : List UInt8}, replyOk ans u c accepted err = (t, d) →
      d.flags = c.flags := by
    intro u accepted err reply
    have kept := replyOk_flags ans u c accepted err
    rwa [reply] at kept
  cases cmd with
  | auth => simp [Cmd.type] at other
  | illegal | okc | ping | help => cases done; rfl
  | infoc =>
    obtain ⟨_, _, done⟩ := bind_eq_ok.mp done
    obtain ⟨_, _, done⟩ := bind_eq_ok.mp done
    cases done
    rfl
  | select value =>
    simp only [dispatch] at done
    split at done <;>
    · cases done
      rfl
  | keys =>
    obtain ⟨_, _, done⟩ := bind_eq_ok.mp done
    simp only at done
    split at done
    · cases done
      rfl
    · obtain ⟨_, _, done⟩ := bind_eq_ok.mp done
      obtain ⟨_, _, done⟩ := bind_eq_ok.mp done
      obtain ⟨_, _, done⟩ := bind_eq_ok.mp done
      cases done
      rfl
  | get | pop | deque =>
    obtain ⟨_, _, done⟩ := bind_eq_ok.mp done
    exact replyObject_flags done
  | set | del | push | enque | zset | zdel =>
    obtain ⟨_, _, done⟩ := bind_eq_ok.mp done
    exact replied (Except.ok.inj done)
  | zhas value =>
    obtain ⟨_, _, done⟩ := bind_eq_ok.mp done
    simp only at done
    split at done
    · obtain ⟨_, _, done⟩ := bind_eq_ok.mp done
      cases done
      rfl
    · cases done
      rfl

theorem authenticated_or (flags : UInt16) : (flags ||| authenticated) &&& authenticated ≠ 0 := by
  have kept : (flags ||| authenticated) &&& authenticated = authenticated := by
    apply UInt16.toBitVec_inj.mp
    ext i inside
    simpa using fun here => .inr here
  rw [kept]
  decide

/-- `execute_cmd` turns the session as the service does. -/
theorem executeCmd_session (users : List User) (parsed : parse env ans.supply fuel (c.readBuf.take c.readPos) = .ok cmd)
    (right : ∀ username password : Object, cmd = .auth username password → AuthRight env ans.hash s users c username password)
    (done : executeCmd env ans fuel s c = .ok (t, d)) :
    d.session = c.session.after (Credentials env users) s.numDatabases (c.session.obeys cmd) := by
  obtain ⟨_, moved⟩ := executeCmd_obeys parsed done
  have same : d.flags = c.flags → (∀ username password, c.obeys cmd ≠ .auth username password) →
      d.session = c.session.after (Credentials env users) s.numDatabases (c.obeys cmd) := by
    intro flags other
    have authed : d.Authenticated ↔ c.Authenticated := by rw [Client.Authenticated, Client.Authenticated, flags]
    cases obeyed : c.obeys cmd with
    | auth username password => exact absurd obeyed (other username password)
    | _ => simp only [Session.after, Client.session, authed, moved, obeyed]
  rw [Client.session_obeys]
  simp only [executeCmd, parsed, ok_bind] at done
  split at done
  · rename_i illegal
    cases done
    refine same rfl fun username password obeyed => ?_
    rw [Client.obeys, if_pos (.inl illegal)] at obeyed
    cases obeyed
  · rename_i legal
    split at done
    · rename_i gated
      cases done
      refine same rfl fun username password obeyed => ?_
      rw [Client.obeys, if_pos (.inr gated)] at obeyed
      cases obeyed
    · rename_i known
      have whole : c.obeys cmd = cmd := if_neg (by rintro (illegal | gated) <;> contradiction)
      rw [whole] at same ⊢
      by_cases auth : cmd.type = .auth
      · cases cmd with
        | auth username password =>
          obtain ⟨answers, succeeds, fails⟩ := right username password rfl
          simp only [dispatch, Except.ok.injEq, Prod.mk.injEq] at done
          obtain ⟨_, rfl⟩ := done
          by_cases zero : (executeAuthCommand env ans.hash s c username password).1 = 0
          · obtain ⟨_, _, _, _, kept, _, _, _, left⟩ := succeeds zero
            have credentials := answers.mp zero
            have authed : Client.Authenticated { c with user := kept, flags := c.flags ||| authenticated } := authenticated_or _
            simp only [zero, ne_eq, not_true_eq_false, ↓reduceIte, left, Session.after, if_pos credentials, Client.session,
              Client.addOk, Client.appended]
            exact Session.mk.injEq .. ▸ ⟨decide_eq_true authed, rfl⟩
          · have denied := mt answers.mpr zero
            simp only [zero, ne_eq, not_false_eq_true, ↓reduceIte, fails zero, Session.after, if_neg denied, Client.session,
              Client.addErr, Client.appended]
            rfl
        | _ => simp [Cmd.type] at auth
      · refine same (dispatch_flags auth done) fun username password obeyed => ?_
        rw [obeyed] at auth
        exact auth rfl

end Commands

namespace World

/-- The slots of the table have the size it says it has, and lead where
`server_new` and the callbacks make them lead. -/
structure Routed (w : World α) : Prop where
  sized : w.ev.Sized
  upright : ∀ fd, (w.ev.entry fd).mask &&& evBoth = 0
  writer : ∀ fd fn, (w.ev.entry fd).writeFn = some fn → fn = .writeToClient

section Routes

variable {w : World α} (routed : w.Routed)
include routed

/-- A read event may be added with any function, a write event with one. -/
theorem Routed.add {ops : EvApi EvFileFn α} {ev : Ev EvFileFn α} (events : mask = evRead ∨ mask = evWrite ∧ fn = .writeToClient)
    (added : evAddEvent ops w.ev fd mask fn serverData = some ev) (s : Server) (heap : Heap) (fds : Finset Nat) :
    Routed ⟨s, heap, fds, ev⟩ := by
  obtain ⟨sized, _, _, slots⟩ := evAddEvent_spec routed.sized added
  refine ⟨sized, ?_, ?_⟩
  · intro other
    rw [slots]
    split
    · have apart : mask &&& evBoth = 0 := by rcases events with rfl | ⟨rfl, _⟩ <;> decide
      simp only [EvFileEvent.add]
      rw [or_and_of_disjoint _ apart]
      exact routed.upright fd
    · exact routed.upright other
  · intro other gn
    rw [slots]
    split
    · intro leads
      rcases events with rfl | ⟨rfl, rfl⟩
      · simp only [EvFileEvent.add] at leads
        rw [if_neg (by decide)] at leads
        exact routed.writer fd gn leads
      · simpa [EvFileEvent.add, evWrite, eq_comm] using leads
    · exact routed.writer other gn

theorem Routed.delete (ops : EvApi EvFileFn α) (fd : Nat) (mask : UInt32) (s : Server) (heap : Heap) (fds : Finset Nat) :
    Routed ⟨s, heap, fds, evDeleteEvent ops w.ev fd mask⟩ := by
  obtain ⟨sized, _, slots⟩ := evDeleteEvent_spec ops routed.sized fd mask
  refine ⟨sized, ?_, ?_⟩
  · intro other
    rw [slots]
    split
    · exact and_not_and_zero (routed.upright fd) _
    · exact routed.upright other
  · intro other gn
    rw [slots]
    split
    · exact routed.writer fd gn
    · exact routed.writer other gn

theorem Routed.keep (s : Server) (heap : Heap) (fds : Finset Nat) : Routed ⟨s, heap, fds, w.ev⟩ :=
  ⟨routed.sized, routed.upright, routed.writer⟩

/-- An event is processed in two halves: first the read callback, if it is
registered and fired, then at most `write_to_client`. -/
theorem Routed.cut {env : Env} {k : Kernel α} (done : w.processEvent env k fd mask = .ok after) :
    ∃ middle, ((w.ev.entry fd).mask &&& mask &&& evRead = 0 ∧ middle = w ∨
        (w.ev.entry fd).mask &&& mask &&& evRead ≠ 0 ∧ w.callback env k (w.ev.entry fd).readFn fd mask = .ok middle) ∧
      (middle.Routed → after = middle ∨
        (middle.ev.entry fd).mask &&& mask &&& evWrite ≠ 0 ∧ ∃ chunks, middle.writeToClient k fd mask = .ok (after, chunks)) := by
  have upright := routed.upright fd
  obtain ⟨⟨middle, fired⟩, first, done⟩ := bind_eq_ok.mp done
  obtain ⟨⟨last, again⟩, second, done⟩ := bind_eq_ok.mp done
  -- without the bit `EV_BOTH` the read callback does not come last
  obtain ⟨⟨final, _⟩, third, done⟩ := bind_eq_ok.mp done
  unfold callIf at third
  rw [if_neg (fun guard => guard.1 upright)] at third
  cases third
  cases done
  refine ⟨middle, ?_, fun rerouted => ?_⟩
  · unfold callIf at first
    split at first
    · rename_i guard
      obtain ⟨_, called, same⟩ := bind_eq_ok.mp first
      cases same
      exact .inr ⟨guard.2, called⟩
    · rename_i guard
      cases first
      exact .inl ⟨not_not.mp fun fires => guard ⟨not_not.mpr upright, fires⟩, rfl⟩
  · unfold callIf at second
    split at second
    · rename_i guard
      obtain ⟨_, called, same⟩ := bind_eq_ok.mp second
      cases same
      cases leads : (middle.ev.entry fd).writeFn with
      | none =>
        rw [leads] at called
        cases called
      | some fn =>
        rw [leads, rerouted.writer _ fn leads] at called
        obtain ⟨⟨_, chunks⟩, wrote, same⟩ := bind_eq_ok.mp called
        cases same
        exact .inr ⟨guard.1, chunks, wrote⟩
    · cases second
      exact .inl rfl

end Routes

end World

section Occurring

variable (env : Env) (k : Kernel α) (w : World α)

/-- The client that `server_accept` leaves on the heap, if any. -/
def Kernel.opens : Option Nat :=
  match k.accept with
  | none => none
  | some cfd =>
    if k.nonblocking then
      match createClient k cfd with
      | none => none
      | some (pointer, _) =>
        if (vecPush k.push w.server.clients pointer).1 = -1 then some pointer
        else (evAddEvent k.api w.ev cfd evRead .readFromClient serverData).map fun _ => pointer
    else none

/-- What `read_from_client` does to the client of the descriptor. -/
def Kernel.reads (fd : Nat) : Option Occurrence :=
  match findClient w.heap fd 0 w.server.clients.elems with
  | .ok (some (_, pointer, c)) =>
    match readLoop k.grow (Arrival.rounds k.arrivals) k.arrivals c with
    | .ok (.closed, _) => some (.closed pointer)
    | .ok (.burst, c) =>
      match parse env k.ans.supply k.fuel (c.readBuf.take c.readPos), executeCmd env k.ans k.fuel w.server c with
      | .ok cmd, .ok (s, d) => some (.asked pointer ⟨w.server, c, k.ans, k.fuel, cmd, s, d⟩)
      | _, _ => none
    | _ => none
  | _ => none

/-- What an event that fires is for the service. -/
def Fired.occurs (e : Fired α) : Option Occurrence :=
  if (w.ev.entry e.fd).mask &&& e.mask &&& evRead ≠ 0 then
    match (w.ev.entry e.fd).readFn with
    | some .serverAccept => (e.k.opens w).map .opened
    | some .readFromClient => e.k.reads env w e.fd
    | _ => none
  else none

end Occurring

/-- An event is processed, and this is what it is for the service. -/
def Traces (env : Env) (w : World α) (e : Fired α × Option Occurrence) (after : World α) : Prop :=
  Fires env w e.1 after ∧ e.2 = e.1.occurs env w

/-- The strings of the request and the digest of its password are allocated. -/
structure Request.Granted (r : Request) : Prop where
  supply : r.ans.supply.Grants
  hash : r.ans.hash.Grants

/-- What the request does to its database keeps a relation to the store that the
service has for it. -/
def Request.Operates (env : Env) (Rel : Nat → Lexidb → Store → Prop) (r : Request) : Prop :=
  ∀ (db : Lexidb) (a : Store), r.before.db[r.client.databaseNum]? = some db →
    (∀ obj ∈ (r.client.obeys r.cmd).args, obj.StringValid) → Rel r.client.databaseNum db a →
    Rel r.client.databaseNum ((r.client.obeys r.cmd).operate env r.ans db) (a.act (r.client.obeys r.cmd))

/-- Every allocation is granted, that of a queue node at an address no queue has in
use, and the command that is obeyed fits the database. -/
structure Request.Tame (env : Env) (r : Request) : Prop where
  grants : r.ans.Grants
  unused : ∀ db ∈ r.before.db, ∀ node, r.ans.node = some node → db.queue.nodes node = none
  fit : ∀ db : Lexidb, r.before.db[r.client.databaseNum]? = some db → (r.client.obeys r.cmd).Fit env db

theorem Request.Tame.granted {r : Request} (tame : r.Tame env) : r.Granted := ⟨tame.grants.supply, tame.grants.hash⟩

theorem Request.Tame.operates {r : Request} (tame : r.Tame env) : r.Operates env fun _ db a => db.Stands env a :=
  fun db _ found strings stands => stands.operate (tame.fit db found) strings tame.grants (tame.unused db (List.mem_of_getElem? found))

/-- The clients are the sessions, the databases are related to the stores, and the
users are those that were configured. -/
structure World.Provides (env : Env) (users : List User) (numDatabases : Nat) (Rel : Nat → Lexidb → Store → Prop) (w : World α)
    (a : Service) : Prop where
  routed : w.Routed
  counted : w.server.numDatabases = numDatabases
  size : w.server.db.length = numDatabases
  keeps : ∃ mem, w.server.Keeps env mem users
  sessions : ∀ who, (w.heap who).map Client.session = a.sessions who
  inside : ∀ who s, a.sessions who = some s → s.database < numDatabases
  stores : ∀ d (db : Lexidb), w.server.db[d]? = some db → Rel d db (a.stores d)

namespace World

section Steps

variable {env : Env} {k : Kernel α} {users : List User} {numDatabases : Nat} {Rel : Nat → Lexidb → Store → Prop}
  {w after : World α} {a : Service} (provides : w.Provides env users numDatabases Rel a)
include provides

/-- What does not touch the databases provides the same stores, for the sessions that
are left. -/
theorem Provides.turn {s : Server} {heap : Heap} {fds : Finset Nat} {ev : Ev EvFileFn α} {sessions : Nat → Option Session}
    (routed : Routed ⟨s, heap, fds, ev⟩) (counted : s.numDatabases = w.server.numDatabases) (db : s.db = w.server.db)
    (kept : s.users = w.server.users) (turned : ∀ who, (heap who).map Client.session = sessions who)
    (inside : ∀ who t, sessions who = some t → t.database < numDatabases) :
    Provides env users numDatabases Rel ⟨s, heap, fds, ev⟩ ⟨sessions, a.stores⟩ := by
  obtain ⟨mem, valid, named, granted, elems⟩ := provides.keeps
  refine ⟨routed, counted.trans provides.counted, ?_, ⟨mem, ?_, named, granted, ?_⟩, turned, inside, ?_⟩
  · rw [db]
    exact provides.size
  · rw [kept]
    exact valid
  · rw [kept]
    exact elems
  · simp only [db]
    exact provides.stores

/-- One session is turned into another, or ended. -/
theorem Provides.update {s : Server} {who : Nat} {c : Option Client} {fds : Finset Nat} {ev : Ev EvFileFn α}
    (routed : Routed ⟨s, Function.update w.heap who c, fds, ev⟩) (counted : s.numDatabases = w.server.numDatabases)
    (db : s.db = w.server.db) (kept : s.users = w.server.users)
    (inside : ∀ t, c.map Client.session = some t → t.database < numDatabases) :
    Provides env users numDatabases Rel ⟨s, Function.update w.heap who c, fds, ev⟩
      ⟨Function.update a.sessions who (c.map Client.session), a.stores⟩ := by
  refine provides.turn routed counted db kept ?_ ?_
  · intro other
    simp only [Function.update_apply]
    split
    · rfl
    · exact provides.sessions other
  · intro other t found
    simp only [Function.update_apply] at found
    split at found
    · exact inside t found
    · exact provides.inside other t found

/-- A client may change in what is not its session. -/
theorem Provides.rewrite {s : Server} {c d : Client} {fds : Finset Nat} {ev : Ev EvFileFn α} (here : w.heap who = some c)
    (same : d.session = c.session) (routed : Routed ⟨s, Function.update w.heap who (some d), fds, ev⟩)
    (counted : s.numDatabases = w.server.numDatabases) (db : s.db = w.server.db) (kept : s.users = w.server.users) :
    Provides env users numDatabases Rel ⟨s, Function.update w.heap who (some d), fds, ev⟩ a := by
  have stood := provides.sessions who
  rw [here, Option.map_some] at stood
  refine provides.turn routed counted db kept ?_ provides.inside
  intro other
  simp only [Function.update_apply]
  split
  · rename_i own
    rw [own, Option.map_some, same, stood]
  · exact provides.sessions other

/-- Nobody is served differently when only the table and the descriptors change. -/
theorem Provides.keep {fds : Finset Nat} {ev : Ev EvFileFn α} (routed : Routed ⟨w.server, w.heap, fds, ev⟩) :
    Provides env users numDatabases Rel ⟨w.server, w.heap, fds, ev⟩ a :=
  provides.turn routed rfl rfl rfl provides.sessions provides.inside

omit provides in
theorem createClient_session {k : Kernel α} (created : createClient k fd = some (pointer, client)) :
    client.session = .fresh ∧ k.client = some pointer := by
  unfold createClient at created
  split at created
  · cases created
  · rename_i address allocated
    split at created
    · cases created
      exact ⟨by simp [Client.session, Client.Authenticated, Session.fresh], allocated⟩
    · cases created

theorem serverAccept_provides (positive : 0 < numDatabases) (possible : k.Possible w) :
    (w.serverAccept k).Provides env users numDatabases Rel
      (a.stepIf (Credentials env users) numDatabases ((k.opens w).map .opened)) := by
  have routed := provides.routed
  unfold serverAccept Kernel.opens
  cases accepted : k.accept with
  | none => exact provides
  | some cfd =>
    by_cases nonblocking : k.nonblocking = true
    · simp only [if_pos nonblocking]
      cases created : createClient k cfd with
      | none => exact provides.keep (routed.keep ..)
      | some made =>
        obtain ⟨pointer, client⟩ := made
        obtain ⟨fresh, allocated⟩ := createClient_session created
        have opened : ∀ {s : Server} {fds : Finset Nat} {ev : Ev EvFileFn α},
            Routed ⟨s, Function.update w.heap pointer (some client), fds, ev⟩ → s.numDatabases = w.server.numDatabases →
            s.db = w.server.db → s.users = w.server.users →
            Provides env users numDatabases Rel ⟨s, Function.update w.heap pointer (some client), fds, ev⟩
              (a.step (Credentials env users) numDatabases (.opened pointer)) := by
          intro s fds ev routed counted db kept
          have turned := provides.update routed counted db kept (by
            rintro t ⟨⟩
            rw [fresh]
            exact positive)
          rw [Option.map_some, fresh] at turned
          exact turned
        by_cases refused : (vecPush k.push w.server.clients pointer).1 = -1
        · simp only [if_pos refused]
          exact opened (routed.keep ..) rfl rfl rfl
        · simp only [if_neg refused]
          cases added : evAddEvent k.api w.ev cfd evRead .readFromClient serverData with
          | none =>
            -- the client is freed again, so its address is as free as it was
            have gone : Function.update (Function.update w.heap pointer (some client)) pointer none = w.heap := by
              rw [Function.update_idem, ← possible.client pointer allocated, Function.update_eq_self]
            simp only [clientFree, gone]
            exact provides.turn (routed.keep ..) rfl rfl rfl provides.sessions provides.inside
          | some ev => exact opened (routed.add (.inl rfl) added _ _ _) rfl rfl rfl
    · simp only [if_neg nonblocking]
      exact provides.keep (routed.keep ..)

omit provides in
/-- The arguments of a command that was parsed are well-formed strings. -/
theorem parsed_stringValid {supply : Supply} (grants : supply.Grants) (parsed : parse env supply fuel input = .ok cmd) :
    ∀ obj ∈ cmd.args, obj.StringValid :=
  parse_args (P := Object.StringValid) (fun _ _ _ _ parsed => parseObject_stringValid grants parsed) trivial parsed

/-- AUTH is answered rightly where no two users of one name have other passwords. -/
theorem Provides.right (unambiguous : Unambiguous env users) (digests : ∀ text, (env.sha256 text).length = 32) {r : Request}
    (granted : r.Granted) (c : Client) {username password : Object}
    (parsed : parse env r.ans.supply fuel input = .ok (.auth username password)) :
    AuthRight env r.ans.hash w.server users c username password := by
  obtain ⟨mem, keeps⟩ := provides.keeps
  have valid := parsed_stringValid granted.supply parsed
  exact (keeps.rightEverywhere_iff granted.hash digests).mpr unambiguous c username password
    (valid username (by simp [Cmd.args])) (valid password (by simp [Cmd.args]))

/-- A request that is executed is one of the service. -/
theorem Provides.asked {r : Request} (unambiguous : Unambiguous env users) (digests : ∀ text, (env.sha256 text).length = 32)
    (before : r.before = w.server) (here : (w.heap who).map Client.session = some r.client.session)
    (parsed : parse env r.ans.supply r.fuel (r.client.readBuf.take r.client.readPos) = .ok r.cmd) (returns : r.Returns env)
    (granted : r.Granted) (operates : r.Operates env Rel)
    (d : Client) (same : d.session = r.reply.session) {fds : Finset Nat} {ev : Ev EvFileFn α}
    (routed : Routed ⟨r.after, Function.update w.heap who (some d), fds, ev⟩) :
    Provides env users numDatabases Rel ⟨r.after, Function.update w.heap who (some d), fds, ev⟩
      (a.step (Credentials env users) numDatabases (.asked who r)) := by
  obtain ⟨⟨n, operated⟩, moved⟩ := executeCmd_obeys parsed returns
  have stood : a.sessions who = some r.client.session := by rw [← provides.sessions, here]
  have session := executeCmd_session users parsed
    (fun username password auth => by
      rw [before]
      exact provides.right unambiguous digests granted r.client (auth ▸ parsed)) returns
  rw [before, provides.counted] at session moved
  rw [before] at operated
  have grown : a.step (Credentials env users) numDatabases (.asked who r) =
      ⟨Function.update a.sessions who (some d.session),
        Function.update a.stores r.client.databaseNum ((a.stores r.client.databaseNum).act (r.client.obeys r.cmd))⟩ := by
    simp only [Service.step, Occurrence.turns, Service.shelve, Occurrence.who, stood, Option.map_some, same, session]
    rw [Client.session_obeys]
    rfl
  rw [grown]
  obtain ⟨mem, valid, named, grants, elems⟩ := provides.keeps
  refine ⟨routed, ?_, ?_, ⟨mem, ?_, named, grants, ?_⟩, ?_, ?_, ?_⟩
  · rw [operated]
    exact provides.counted
  · rw [operated]
    simpa [Server.recount] using provides.size
  · rw [operated]
    exact valid
  · rw [operated]
    exact elems
  · intro other
    simp only [Function.update_apply]
    split
    · rfl
    · exact provides.sessions other
  · intro other t found
    simp only [Function.update_apply] at found
    split at found
    · cases found
      rw [same]
      change r.reply.databaseNum < numDatabases
      rw [moved]
      exact Cmd.selects_lt (provides.inside who _ stood)
    · exact provides.inside other t found
  · intro i db found
    have source : (w.server.db.modify r.client.databaseNum ((r.client.obeys r.cmd).operate env r.ans))[i]? = some db := by
      rw [operated] at found
      exact found
    by_cases own : r.client.databaseNum = i
    · subst own
      rw [List.getElem?_modify_eq] at source
      obtain ⟨old, stored, rfl⟩ := Option.map_eq_some_iff.mp source
      have strings : ∀ obj ∈ (r.client.obeys r.cmd).args, obj.StringValid := by
        unfold Client.obeys
        split
        · simp [Cmd.args]
        · exact parsed_stringValid granted.supply parsed
      simp only [Function.update_self]
      exact operates old _ (before ▸ stored) strings (provides.stores _ old stored)
    · rw [List.getElem?_modify_ne _ _ own] at source
      simp only [Function.update_of_ne (Ne.symm own)]
      exact provides.stores i db source

theorem readFromClient_provides (unambiguous : Unambiguous env users) (digests : ∀ text, (env.sha256 text).length = 32)
    (good : ∀ who r, k.reads env w fd = some (.asked who r) → r.Granted ∧ r.Operates env Rel) (done : w.readFromClient env k fd mask = .ok after) :
    after.Provides env users numDatabases Rel (a.stepIf (Credentials env users) numDatabases (k.reads env w fd)) := by
  have routed := provides.routed
  obtain ⟨found, searched, done⟩ := bind_eq_ok.mp done
  unfold Kernel.reads at good ⊢
  rw [searched] at good ⊢
  split at done
  · cases done
    exact provides.keep (routed.delete ..)
  · rename_i i pointer c
    have here := (findClient_fd _ _ searched).1
    obtain ⟨⟨ended, d⟩, looped, done⟩ := bind_eq_ok.mp done
    have same : d.session = c.session := by
      obtain ⟨_, _, _, rfl⟩ := readLoop_buffered _ _ _ _ _ looped
      rfl
    simp only [looped] at good ⊢
    cases ended with
    | closed =>
      cases done
      exact provides.update (c := none) (routed.delete ..) rfl rfl rfl (by simp)
    | failed =>
      cases done
      exact provides.rewrite here same (routed.keep ..) rfl rfl rfl
    | burst =>
      obtain ⟨⟨s, e⟩, executed, done⟩ := bind_eq_ok.mp done
      obtain ⟨cmd, parsed, _⟩ := bind_eq_ok.mp executed
      simp only [parsed, executed] at good ⊢
      have session : (w.heap pointer).map Client.session = some d.session := by rw [here, Option.map_some, same]
      have returns : Request.Returns env ⟨w.server, d, k.ans, k.fuel, cmd, s, e⟩ := executed
      obtain ⟨granted, operates⟩ := good pointer _ rfl
      simp only at done
      split at done
      · cases done
        exact provides.asked unambiguous digests rfl session parsed returns granted operates e.handOff rfl (routed.keep ..)
      · rename_i ev added
        cases done
        exact provides.asked unambiguous digests rfl session parsed returns granted operates e.handOff.cleared rfl
          (routed.add (.inr ⟨rfl, rfl⟩) added _ _ _)

theorem writeToClient_provides (done : w.writeToClient k fd mask = .ok (after, chunks)) :
    after.Provides env users numDatabases Rel a := by
  have routed := provides.routed
  obtain ⟨found, searched, done⟩ := bind_eq_ok.mp done
  split at done
  · cases done
    exact provides.keep (routed.delete ..)
  · rename_i i pointer c
    obtain ⟨⟨sent, taken⟩, _, done⟩ := bind_eq_ok.mp done
    simp only at done
    split at done
    · cases done
      exact provides.rewrite (d := { c with builder := builderReset c.builder }) (findClient_fd _ _ searched).1 rfl
        (routed.delete ..) rfl rfl rfl
    · cases done
      exact provides

/-- An event that is processed is what it stands for. -/
theorem Provides.step (positive : 0 < numDatabases) (unambiguous : Unambiguous env users)
    (digests : ∀ text, (env.sha256 text).length = 32) {e : Fired α × Option Occurrence} (traces : Traces env w e after)
    (good : ∀ who r, e.2 = some (.asked who r) → r.Granted ∧ r.Operates env Rel) :
    after.Provides env users numDatabases Rel (a.stepIf (Credentials env users) numDatabases e.2) := by
  obtain ⟨⟨possible, done⟩, label⟩ := traces
  obtain ⟨middle, reads, writes⟩ := provides.routed.cut done
  rw [label] at good ⊢
  have read : middle.Provides env users numDatabases Rel (a.stepIf (Credentials env users) numDatabases (e.1.occurs env w)) := by
    unfold Fired.occurs at good ⊢
    rcases reads with ⟨idle, rfl⟩ | ⟨fires, called⟩
    · rw [if_neg (not_not.mpr idle)]
      exact provides
    · rw [if_pos fires] at good ⊢
      unfold callback at called
      split at called
      · cases called
      · rename_i leads
        cases called
        rw [leads]
        exact serverAccept_provides provides positive possible
      · rename_i leads
        rw [leads] at good ⊢
        exact readFromClient_provides provides unambiguous digests good called
      · rename_i leads
        rw [leads]
        obtain ⟨⟨_, chunks⟩, wrote, same⟩ := bind_eq_ok.mp called
        cases same
        exact writeToClient_provides provides wrote
  rcases writes read.routed with rfl | ⟨_, chunks, wrote⟩
  · exact read
  · exact writeToClient_provides read wrote

/-- The relation may be weakened. -/
theorem Provides.mono {S : Nat → Lexidb → Store → Prop} (weaker : ∀ d db a, Rel d db a → S d db a) :
    w.Provides env users numDatabases S a :=
  ⟨provides.routed, provides.counted, provides.size, provides.keeps, provides.sessions, provides.inside,
    fun d db found => weaker d db _ (provides.stores d db found)⟩

omit provides in
/-- The reply to a request that fits is the one of the service. -/
theorem Provides.replies (provides : w.Provides env users numDatabases (fun _ db a => db.Stands env a) a) {r : Request}
    (unambiguous : Unambiguous env users) (digests : ∀ text, (env.sha256 text).length = 32)
    (before : r.before = w.server) (here : (w.heap who).map Client.session = some r.client.session)
    (parsed : parse env r.ans.supply r.fuel (r.client.readBuf.take r.client.readPos) = .ok r.cmd) (returns : r.Returns env)
    (tame : r.Tame env) (plain : r.cmd.type ≠ .infoc ∧ r.cmd.type ≠ .keys)
    (takes : r.client.Takes (a.stores r.client.databaseNum)) :
    ∃ text, Appended r.client.builder text r.reply.builder ∧ a.Reply (Credentials env users) numDatabases who r.cmd text := by
  have stood : a.sessions who = some r.client.session := by rw [← provides.sessions, here]
  have authed : r.client.session.authed = true ↔ r.client.Authenticated := by simp [Client.session]
  have done := returns
  simp only [Request.Returns, executeCmd, parsed, ok_bind] at done
  unfold Service.Reply
  split at done
  · rename_i illegal
    obtain ⟨_, reply⟩ := Prod.mk.inj (Except.ok.inj done)
    rw [← reply]
    exact ⟨_, addErr_line tame.grants takes.valid takes.line (by decide), _, stood, by rw [if_pos illegal]⟩
  · rename_i legal
    split at done
    · rename_i gated
      obtain ⟨_, reply⟩ := Prod.mk.inj (Except.ok.inj done)
      rw [← reply]
      refine ⟨_, addErr_line tame.grants takes.valid takes.line (by decide), _, stood, ?_⟩
      rw [if_neg legal, if_pos (by rw [authed]; exact gated)]
    · rename_i known
      have open_ : ¬ (¬ r.client.session.authed = true ∧ r.cmd.type ≠ .auth) := by rwa [authed]
      have whole : r.client.obeys r.cmd = r.cmd := if_neg (by rintro (illegal | gated) <;> contradiction)
      by_cases auth : r.cmd.type = .auth
      · cases cmd : r.cmd with
        | auth username password =>
          rw [cmd] at parsed done
          have right := provides.right unambiguous digests tame.granted r.client parsed
          rw [← before] at right
          simp only [dispatch, Except.ok.injEq, Prod.mk.injEq] at done
          obtain ⟨_, reply⟩ := done
          have kept := executeAuthCommand_builder env r.ans.hash r.before r.client username password
          have answered : ∀ text, (Credentials env users username password ∧ text = okLine ∨
              ¬ Credentials env users username password ∧ text = errLine (cstr "failed to authenticate")) →
              a.Reply (Credentials env users) numDatabases who (.auth username password) text := by
            intro text answer
            refine ⟨_, stood, ?_⟩
            rw [if_neg (by simp [Cmd.type]), if_neg (by simp [Cmd.type])]
            exact answer
          by_cases zero : (executeAuthCommand env r.ans.hash r.before r.client username password).1 = 0
          · refine ⟨okLine, ?_, answered _ (.inl ⟨right.answers.mp zero, rfl⟩)⟩
            rw [← reply, if_neg (not_not.mpr zero)]
            simpa only [Client.addOk, Client.appended, kept] using addOk_line tame.grants takes.valid takes.line
          · refine ⟨_, ?_, answered _ (.inr ⟨mt right.answers.mpr zero, rfl⟩)⟩
            rw [← reply, if_pos zero]
            simpa only [Client.addErr, Client.appended, kept] using
              addErr_line tame.grants takes.valid takes.line (show cstr "failed to authenticate" ∈ serverErrors by decide)
        | _ => simp [cmd, Cmd.type] at auth
      · obtain ⟨db, found⟩ : ∃ db, w.server.db[r.client.databaseNum]? = some db := by
          have inside := provides.inside who _ stood
          rw [← provides.size] at inside
          exact ⟨_, List.getElem?_eq_getElem inside⟩
        have fit := tame.fit db (before ▸ found)
        rw [whole] at fit
        obtain ⟨text, appended, reply⟩ := dispatch_replies tame.grants takes (before ▸ found) (provides.stores _ db found) fit
          (parsed_stringValid tame.grants.supply parsed) ⟨auth, plain⟩ done
        rw [before, provides.counted] at reply
        refine ⟨text, appended, _, stood, ?_⟩
        rw [if_neg legal, if_neg open_]
        cases cmd : r.cmd with
        | auth => simp [cmd, Cmd.type] at auth
        | _ =>
          rw [cmd] at reply
          exact reply

end Steps

end World

end LexiDB
