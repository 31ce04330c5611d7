import LexiDB.Server
import LexiDB.TableRefinement

/-! What `execute_cmd` can do to the databases: at most one operation, on the
database the client has selected. -/

namespace LexiDB

open Lib

section Access

variable {env : Env} {ans : Answers} {c : Client}

/-- An access that returned found its database and changed no other. -/
theorem onDb_ok {s t : Server} {access : Lexidb → α × Lexidb} (done : s.onDb d access = .ok (res, t)) :
    ∃ db, s.db[d]? = some db ∧ (access db).1 = res ∧ t = { s with db := s.db.set d (access db).2 } := by
  unfold Server.onDb at done
  split at done
  · cases done
  · rename_i db found
    cases done
    exact ⟨db, found, rfl, rfl⟩

theorem onDb_found {s : Server} (found : s.db[d]? = some db) (access : Lexidb → α × Lexidb) :
    s.onDb d access = .ok ((access db).1, { s with db := s.db.set d (access db).2 }) := by
  simp [Server.onDb, found]

/-- A database that is written back as it was. -/
theorem set_db_self {s : Server} (found : s.db[d]? = some db) : { s with db := s.db.set d db } = s := by
  obtain ⟨inside, here⟩ := List.getElem?_eq_some_iff.mp found
  have same : s.db.set d db = s.db := by
    rw [← here]
    exact List.set_getElem_self inside
  rw [same]

theorem set_db_getElem {s : Server} (found : s.db[d]? = some db) (other : Lexidb) :
    (s.db.set d other)[d]? = some other := by
  obtain ⟨inside, _⟩ := List.getElem?_eq_some_iff.mp found
  simp [inside]

end Access

section Replying

/-- Replying leaves the databases alone. -/
@[simp] theorem replyOk_db (ans : Answers) (s : Server) (c : Client) (accepted : Bool) (err : List UInt8) :
    (replyOk ans s c accepted err).1.db = s.db := by
  unfold replyOk
  split <;> rfl

/-- The server with another count of executed commands. -/
def Server.recount (s : Server) (cmdExecuted : Nat) : Server := { s with cmdExecuted := cmdExecuted }

theorem replyOk_recount (ans : Answers) (s : Server) (c : Client) (accepted : Bool) (err : List UInt8) :
    ∃ n, (replyOk ans s c accepted err).1 = s.recount n := by
  unfold replyOk
  split
  · exact ⟨_, rfl⟩
  · exact ⟨s.cmdExecuted, rfl⟩

theorem replyObject_recount {env : Env} {ans : Answers} {s t : Server} {c d : Client}
    (done : replyObject env ans fuel s c obj = .ok (t, d)) : ∃ n, t = s.recount n := by
  unfold replyObject at done
  split at done
  · cases done
    exact ⟨s.cmdExecuted, rfl⟩
  · obtain ⟨res, _, done⟩ := bind_eq_ok.mp done
    cases done
    exact ⟨_, rfl⟩

end Replying

/-- The operation a command performs on its database. -/
inductive DbStep (env : Env) (ans : Answers) : Cmd → Lexidb → Lexidb → Prop where
  | set : DbStep env ans (.set key value) db { db with dict := (htInsert (objectOps env) ans.resize db.dict key value).2 }
  | del : DbStep env ans (.del key) db { db with dict := (htDelete (objectOps env) db.dict key).2 }
  | push : DbStep env ans (.push value) db { db with vec := (vecPush ans.vec db.vec value).2 }
  | pop : DbStep env ans .pop db { db with vec := (vecPop db.vec).2 }
  | enque : DbStep env ans (.enque value) db { db with queue := (queueEnque ans.node db.queue value).2 }
  | deque : DbStep env ans .deque db { db with queue := (queueDeque db.queue).2 }
  | zset : DbStep env ans (.zset value) db { db with set := (setInsert (objectOps env) ans.set db.set value).2 }
  | zdel : DbStep env ans (.zdel value) db { db with set := (setDelete (objectOps env) db.set value).2 }

/-- The databases after a command: as they were, or with the selected one
operated on. -/
inductive Leaves (env : Env) (ans : Answers) (s : Server) (databaseNum : Nat) (cmd : Cmd) : Server → Prop where
  | same (n : Nat) : Leaves env ans s databaseNum cmd (s.recount n)
  | changed (n : Nat) (found : s.db[databaseNum]? = some db) (step : DbStep env ans cmd db after) :
      Leaves env ans s databaseNum cmd ({ s with db := s.db.set databaseNum after }.recount n)

/-- What a command makes of the database it works on. -/
def Cmd.operate (env : Env) (ans : Answers) : Cmd → Lexidb → Lexidb
  | .set key value, db => { db with dict := (htInsert (objectOps env) ans.resize db.dict key value).2 }
  | .del key, db => { db with dict := (htDelete (objectOps env) db.dict key).2 }
  | .push value, db => { db with vec := (vecPush ans.vec db.vec value).2 }
  | .pop, db => { db with vec := (vecPop db.vec).2 }
  | .enque value, db => { db with queue := (queueEnque ans.node db.queue value).2 }
  | .deque, db => { db with queue := (queueDeque db.queue).2 }
  | .zset value, db => { db with set := (setInsert (objectOps env) ans.set db.set value).2 }
  | .zdel value, db => { db with set := (setDelete (objectOps env) db.set value).2 }
  | _, db => db

theorem modify_db {s : Server} (found : s.db[d]? = some db) (f : Lexidb → Lexidb) : s.db.modify d f = s.db.set d (f db) := by
  apply List.ext_getElem?
  intro i
  by_cases same : d = i
  · subst same
    rw [set_db_getElem found]
    simp [found]
  · simp [same]

/-- Every command operates on the selected database, and otherwise only counts. -/
theorem dispatch_operates {env : Env} {ans : Answers} {s t : Server} {c d : Client} {cmd : Cmd}
    (done : dispatch env ans fuel s c cmd = .ok (t, d)) :
    ∃ n, t = { s with db := s.db.modify c.databaseNum (cmd.operate env ans) }.recount n := by
  -- a command that writes no database: the reply only counts
  have idle : cmd.operate env ans = id → (∃ n, t = s.recount n) →
      ∃ n, t = { s with db := s.db.modify c.databaseNum (cmd.operate env ans) }.recount n := by
    rintro quiet ⟨n, same⟩
    refine ⟨n, ?_⟩
    rw [same, quiet, List.modify_id]
  -- a refusable command: the access wrote the database back
  have replied : ∀ {u : Server} {accepted : Bool} {err : List UInt8} {db : Lexidb},
      s.db[c.databaseNum]? = some db → u = { s with db := s.db.set c.databaseNum (cmd.operate env ans db) } →
      replyOk ans u c accepted err = (t, d) →
      ∃ n, t = { s with db := s.db.modify c.databaseNum (cmd.operate env ans) }.recount n := by
    intro u accepted err db found same reply
    obtain ⟨n, counted⟩ := replyOk_recount ans u c accepted err
    rw [reply] at counted
    refine ⟨n, ?_⟩
    rw [modify_db found, ← same]
    exact counted
  cases cmd with
  | illegal | okc | help | auth => cases done; exact idle rfl ⟨s.cmdExecuted, rfl⟩
  | ping => cases done; exact idle rfl ⟨_, rfl⟩
  | infoc =>
    obtain ⟨_, _, done⟩ := bind_eq_ok.mp done
    obtain ⟨_, _, done⟩ := bind_eq_ok.mp done
    cases done
    exact idle rfl ⟨_, rfl⟩
  | select value =>
    simp only [dispatch] at done
    split at done <;>
    · cases done
      exact idle rfl ⟨s.cmdExecuted, rfl⟩
  | keys =>
    obtain ⟨⟨len, _⟩, _, done⟩ := bind_eq_ok.mp done
    simp only at done
    split at done
    · cases done
      exact idle rfl ⟨_, rfl⟩
    · obtain ⟨_, _, done⟩ := bind_eq_ok.mp done
      obtain ⟨_, _, done⟩ := bind_eq_ok.mp done
      obtain ⟨_, _, done⟩ := bind_eq_ok.mp done
      cases done
      exact idle rfl ⟨_, rfl⟩
  | set | del | push | enque | zset | zdel =>
    obtain ⟨⟨res, u⟩, accessed, done⟩ := bind_eq_ok.mp done
    obtain ⟨db, found, _, left⟩ := onDb_ok accessed
    exact replied found left (Except.ok.inj done)
  | get key =>
    obtain ⟨⟨res, u⟩, accessed, done⟩ := bind_eq_ok.mp done
    obtain ⟨db, found, _, rfl⟩ := onDb_ok accessed
    rw [set_db_self found] at done
    exact idle rfl (replyObject_recount done)
  | pop | deque =>
    obtain ⟨⟨res, u⟩, accessed, done⟩ := bind_eq_ok.mp done
    obtain ⟨db, found, _, rfl⟩ := onDb_ok accessed
    rw [modify_db found]
    exact replyObject_recount done
  | zhas value =>
    obtain ⟨⟨res, u⟩, accessed, done⟩ := bind_eq_ok.mp done
    obtain ⟨db, found, _, rfl⟩ := onDb_ok accessed
    rw [set_db_self found] at done
    simp only at done
    split at done
    · obtain ⟨_, _, done⟩ := bind_eq_ok.mp done
      cases done
      exact idle rfl ⟨_, rfl⟩
    · cases done
      exact idle rfl ⟨s.cmdExecuted, rfl⟩

/-- What every command leaves of the server. -/
theorem dispatch_leaves {env : Env} {ans : Answers} {s t : Server} {c d : Client} {cmd : Cmd}
    (done : dispatch env ans fuel s c cmd = .ok (t, d)) : Leaves env ans s c.databaseNum cmd t := by
  obtain ⟨n, rfl⟩ := dispatch_operates done
  cases found : s.db[c.databaseNum]? with
  | none =>
    rw [List.modify_eq_self (List.getElem?_eq_none_iff.mp found)]
    exact .same n
  | some db =>
    rw [modify_db found]
    cases cmd with
    | set => exact .changed n found .set
    | del => exact .changed n found .del
    | push => exact .changed n found .push
    | pop => exact .changed n found .pop
    | enque => exact .changed n found .enque
    | deque => exact .changed n found .deque
    | zset => exact .changed n found .zset
    | zdel => exact .changed n found .zdel
    | _ =>
      simp only [Cmd.operate, set_db_self found]
      exact .same n

theorem executeCmd_leaves {env : Env} {ans : Answers} {s t : Server} {c d : Client}
    (done : executeCmd env ans fuel s c = .ok (t, d)) : ∃ cmd, Leaves env ans s c.databaseNum cmd t := by
  obtain ⟨cmd, _, done⟩ := bind_eq_ok.mp done
  refine ⟨cmd, ?_⟩
  split at done
  · cases done
    exact .same s.cmdExecuted
  · split at done
    · cases done
      exact .same s.cmdExecuted
    · exact dispatch_leaves done

/-- The connection of one client with the session of another. -/
def Client.carrying (c session : Client) : Client :=
  { c with flags := session.flags, databaseNum := session.databaseNum, builder := session.builder, user := session.user }

section Carrying

variable {env : Env} {ans : Answers}

theorem replyOk_carrying (s : Server) (c d : Client) (accepted : Bool) (err : List UInt8) :
    replyOk ans s (c.carrying d) accepted err = ((replyOk ans s d accepted err).1, c.carrying (replyOk ans s d accepted err).2) := by
  unfold replyOk
  split <;> rfl

theorem replyObject_carrying (s : Server) (c d : Client) (obj : Option Object) :
    replyObject env ans fuel s (c.carrying d) obj =
      (replyObject env ans fuel s d obj).map fun result => (result.1, c.carrying result.2) := by
  cases obj with
  | none => rfl
  | some obj =>
    simp only [replyObject, Client.carrying]
    cases builderAddObject ans.reply env fuel d.builder obj <;> rfl

theorem executeKeys_carrying (s : Server) (c d : Client) :
    executeKeys env ans fuel s (c.carrying d) =
      (executeKeys env ans fuel s d).map fun result => (result.1, c.carrying result.2) := by
  simp only [executeKeys, Client.carrying]
  cases s.onDb d.databaseNum fun db => (db.dict.numEntries, db) with
  | error => rfl
  | ok counted =>
    simp only [ok_bind]
    split
    · rfl
    · cases s.onDb 0 fun db => (db.dict, db) with
      | error => rfl
      | ok walked =>
        simp only [ok_bind]
        cases builderAddArray ans.reply d.builder counted.1 with
        | error => rfl
        | ok headed =>
          simp only [ok_bind]
          cases builderAddKeys env ans.reply walked.1 fuel (htIterNew walked.1) headed.2 <;> rfl

theorem executeAuthCommand_carrying (mem : Mem) (s : Server) (c d : Client) (username password : Object) :
    executeAuthCommand env mem s (c.carrying d) username password =
      ((executeAuthCommand env mem s d username password).1, c.carrying (executeAuthCommand env mem s d username password).2) := by
  unfold executeAuthCommand
  split
  · split
    · rfl
    · simp only
      split <;> rfl
  · rfl

/-- A command reads and changes the session of its client, never the
connection. -/
theorem dispatch_carrying (s : Server) (c d : Client) (cmd : Cmd) :
    dispatch env ans fuel s (c.carrying d) cmd =
      (dispatch env ans fuel s d cmd).map fun result => (result.1, c.carrying result.2) := by
  have selected : (c.carrying d).databaseNum = d.databaseNum := rfl
  -- the commands that answer what an access to the selected database returned
  have refusable : ∀ {β : Type} (access : Except Halt (β × Server)) (accepted : β → Bool) (err : List UInt8),
      (access >>= fun res => .ok (replyOk ans res.2 (c.carrying d) (accepted res.1) err)) =
        (access >>= fun res => .ok (replyOk ans res.2 d (accepted res.1) err)).map
          fun result => (result.1, c.carrying result.2) := by
    intro β access accepted err
    cases access with
    | error => rfl
    | ok res => exact congrArg Except.ok (replyOk_carrying res.2 c d (accepted res.1) err)
  have fetching : ∀ access : Except Halt (Option Object × Server),
      (access >>= fun res => replyObject env ans fuel res.2 (c.carrying d) res.1) =
        (access >>= fun res => replyObject env ans fuel res.2 d res.1).map fun result => (result.1, c.carrying result.2) := by
    intro access
    cases access with
    | error => rfl
    | ok res => exact replyObject_carrying res.2 c d res.1
  cases cmd with
  | illegal => rfl
  | okc => rfl
  | ping => rfl
  | help _ _ => rfl
  | auth username password =>
    simp only [dispatch, executeAuthCommand_carrying]
    split <;> rfl
  | infoc =>
    simp only [dispatch, Client.carrying]
    cases builderAddHt ans.reply d.builder 11 with
    | error => rfl
    | ok headed =>
      simp only [ok_bind]
      cases builderAddInfo ans.reply (s.info ans.now) headed.2 <;> rfl
  | select value =>
    simp only [dispatch]
    split <;> rfl
  | keys => exact executeKeys_carrying s c d
  | set key value => exact refusable _ (fun res => res = HtResult.ok) errOom
  | get key => exact fetching _
  | del key => exact refusable _ (fun res => res = HtResult.ok) errInvalidKey
  | push value => exact refusable _ (fun res => res ≠ (-1 : Int)) (cstr "unable to push")
  | pop => exact fetching _
  | enque value => exact refusable _ (fun res => res ≠ (-1 : Int)) (cstr "failed to enque data")
  | deque => exact fetching _
  | zset value => exact refusable _ (fun res => res ≠ SetResult.oom) errOom
  | zhas value =>
    simp only [dispatch, selected]
    cases executeZhasCommand env s value d.databaseNum with
    | error => rfl
    | ok res =>
      simp only [ok_bind]
      split
      · simp only [Client.carrying]
        cases builderAddInt ans.reply d.builder 1 <;> rfl
      · rfl
  | zdel value => exact refusable _ (fun res => res = SetResult.ok) errInvalidKey

/-- Two connections that hold the same request get the same answer. -/
theorem executeCmd_carrying (s : Server) {c d : Client} (same : c.readBuf.take c.readPos = d.readBuf.take d.readPos) :
    executeCmd env ans fuel s (c.carrying d) =
      (executeCmd env ans fuel s d).map fun result => (result.1, c.carrying result.2) := by
  have input : (c.carrying d).readBuf.take (c.carrying d).readPos = d.readBuf.take d.readPos := same
  have flags : (c.carrying d).Authenticated ↔ d.Authenticated := .rfl
  simp only [executeCmd, input, flags]
  cases parse env ans.supply fuel (d.readBuf.take d.readPos) with
  | error => rfl
  | ok cmd =>
    simp only [ok_bind]
    split
    · rfl
    · split
      · rfl
      · exact dispatch_carrying s c d cmd

/-- `execute_cmd` leaves the connection alone. -/
theorem executeCmd_connection {s t : Server} {c d : Client} (done : executeCmd env ans fuel s c = .ok (t, d)) :
    d = c.carrying d := by
  have mapped : executeCmd env ans fuel s c = (executeCmd env ans fuel s c).map fun result => (result.1, c.carrying result.2) :=
    executeCmd_carrying s rfl
  rw [done] at mapped
  exact congrArg Prod.snd (Except.ok.inj mapped)

end Carrying

section Selecting

variable {env : Env} {ans : Answers}

/-- The database a command leaves its client on. -/
def Cmd.selects (numDatabases databaseNum : Nat) : Cmd → Nat
  | .select value => if value.num.toUInt64.toNat < numDatabases then value.num.toUInt64.toNat else databaseNum
  | _ => databaseNum

theorem Cmd.selects_lt {cmd : Cmd} (inside : databaseNum < numDatabases) : cmd.selects numDatabases databaseNum < numDatabases := by
  cases cmd with
  | select value =>
    simp only [Cmd.selects]
    split
    · assumption
    · exact inside
  | _ => exact inside

theorem executeAuthCommand_databaseNum (env : Env) (mem : Mem) (s : Server) (c : Client) (username password : Object) :
    (executeAuthCommand env mem s c username password).2.databaseNum = c.databaseNum := by
  unfold executeAuthCommand
  split
  · split
    · rfl
    · simp only
      split <;> rfl
  · rfl

theorem replyOk_databaseNum (ans : Answers) (s : Server) (c : Client) (accepted : Bool) (err : List UInt8) :
    (replyOk ans s c accepted err).2.databaseNum = c.databaseNum := by
  unfold replyOk
  split <;> rfl

theorem replyObject_databaseNum {s t : Server} {c d : Client} (done : replyObject env ans fuel s c obj = .ok (t, d)) :
    d.databaseNum = c.databaseNum := by
  unfold replyObject at done
  split at done
  · cases done
    rfl
  · obtain ⟨res, _, done⟩ := bind_eq_ok.mp done
    cases done
    rfl

/-- Only SELECT moves a client to another database. -/
theorem dispatch_databaseNum {s t : Server} {c d : Client} {cmd : Cmd} (done : dispatch env ans fuel s c cmd = .ok (t, d)) :
    d.databaseNum = cmd.selects s.numDatabases c.databaseNum := by
  have replied : ∀ {u : Server} {accepted : Bool} {err : List UInt8}, replyOk ans u c accepted err = (t, d) →
      d.databaseNum = c.databaseNum := by
    intro u accepted err reply
    have kept := replyOk_databaseNum ans u c accepted err
    rwa [reply] at kept
  cases cmd with
  | illegal | okc | ping | help => cases done; rfl
  | auth username password =>
    have kept := executeAuthCommand_databaseNum env ans.hash s c username password
    simp only [dispatch, Except.ok.injEq, Prod.mk.injEq] at done
    rw [← done.2]
    split <;> exact kept
  | infoc =>
    obtain ⟨_, _, done⟩ := bind_eq_ok.mp done
    obtain ⟨_, _, done⟩ := bind_eq_ok.mp done
    cases done
    rfl
  | select value =>
    simp only [dispatch] at done
    split at done
    · rename_i outside
      cases done
      exact (if_neg (Nat.not_lt.mpr outside)).symm
    · rename_i inside
      cases done
      exact (if_pos (Nat.not_le.mp inside)).symm
  | keys =>
    obtain ⟨⟨len, _⟩, _, done⟩ := bind_eq_ok.mp done
    simp only at done
    split at done
    · cases done
      rfl
    · obtain ⟨_, _, done⟩ := bind_eq_ok.mp done
      obtain ⟨_, _, done⟩ := bind_eq_ok.mp done
      obtain ⟨_, _, done⟩ := bind_eq_ok.mp done
      cases done
      rfl
  | get | pop | deque =>
    obtain ⟨_, _, done⟩ := bind_eq_ok.mp done
    exact replyObject_databaseNum done
  | set | del | push | enque | zset | zdel =>
    obtain ⟨_, _, done⟩ := bind_eq_ok.mp done
    exact replied (Except.ok.inj done)
  | zhas value =>
    obtain ⟨_, _, done⟩ := bind_eq_ok.mp done
    simp only at done
    split at done
    · obtain ⟨_, _, done⟩ := bind_eq_ok.mp done
      cases done
      rfl
    · cases done
      rfl

/-- What `execute_cmd` carries out of a command: nothing of an illegal one, nor of
one that needs authentication. -/
def Client.obeys (c : Client) (cmd : Cmd) : Cmd :=
  if cmd.type = .illegal ∨ ¬ c.Authenticated ∧ cmd.type ≠ .auth then .illegal else cmd

/-- `execute_cmd` of a parsed command is the `switch`, or a refusal. -/
theorem executeCmd_obeys {s t : Server} {c d : Client} (parsed : parse env ans.supply fuel (c.readBuf.take c.readPos) = .ok cmd)
    (done : executeCmd env ans fuel s c = .ok (t, d)) :
    (∃ n, t = { s with db := s.db.modify c.databaseNum ((c.obeys cmd).operate env ans) }.recount n) ∧
      d.databaseNum = (c.obeys cmd).selects s.numDatabases c.databaseNum := by
  have refused : c.obeys cmd = .illegal → t = s → d.databaseNum = c.databaseNum →
      (∃ n, t = { s with db := s.db.modify c.databaseNum ((c.obeys cmd).operate env ans) }.recount n) ∧
        d.databaseNum = (c.obeys cmd).selects s.numDatabases c.databaseNum := by
    intro nothing same kept
    rw [nothing]
    refine ⟨⟨s.cmdExecuted, ?_⟩, kept⟩
    rw [same]
    exact congrArg (fun db => { s with db := db }) (List.modify_id ..).symm
  simp only [executeCmd, parsed, ok_bind] at done
  split at done
  · rename_i illegal
    cases done
    exact refused (if_pos (.inl illegal)) rfl rfl
  · rename_i legal
    split at done
    · rename_i gated
      cases done
      exact refused (if_pos (.inr gated)) rfl rfl
    · rename_i known
      have whole : c.obeys cmd = cmd := if_neg (by rintro (illegal | gated) <;> contradiction)
      rw [whole]
      exact ⟨dispatch_operates done, dispatch_databaseNum done⟩

end Selecting

/-- Every dictionary is a counted table with its entries in place. -/
def Server.DictsPlaced (env : Env) (s : Server) : Prop := ∀ db ∈ s.db, db.dict.Placed (objectOps env)

/-- Whatever a client sends, the dictionaries stay well placed. -/
theorem Server.DictsPlaced.step {env : Env} {ans : Answers} {s t : Server} {c d : Client}
    (placed : s.DictsPlaced env) (done : executeCmd env ans fuel s c = .ok (t, d)) : t.DictsPlaced env := by
  obtain ⟨cmd, left⟩ := executeCmd_leaves done
  cases left with
  | same n => exact placed
  | changed n found step =>
    have here := placed _ (List.mem_of_getElem? found)
    intro other member
    rcases List.mem_or_eq_of_mem_set member with old | same
    · exact placed other old
    · subst same
      cases step with
      | set => exact htInsert_placed here _ _ _
      | del => exact htDelete_placed here _
      | _ => exact here

end LexiDB
