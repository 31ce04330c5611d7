import LexiDB.Requests
import LexiDB.TableRefinement

/-! SET, GET and DEL on one database against a map from key values to objects. -/

namespace LexiDB

open Lib

/-- The key of a dictionary command. -/
def Cmd.dictKey : Cmd → Option Object
  | .set key _ | .get key | .del key => some key
  | _ => none

/-- A SET, GET or DEL of an Int, Bool or String key. -/
def Request.OnDict (r : Request) : Prop := ∃ key, r.cmd.dictKey = some key ∧ key.scalar.isSome

/-- What a command makes of the bindings. -/
def Cmd.rebind (map : Option Scalar → Option Object) : Cmd → Option Scalar → Option Object
  | .set key value => Function.update map key.scalar (some value)
  | .del key => Function.update map key.scalar none
  | _ => map

/-- The binding of each key value after these commands: that of its latest SET,
unless a DEL came after it. -/
def latest (history : List Request) : Option Scalar → Option Object :=
  history.foldl (fun map r => r.cmd.rebind map) fun _ => none

/-- The request was answered as the bindings of its history demand. -/
def Request.AnsweredBy (env : Env) (d : Nat) (history : List Request) (r : Request) : Prop :=
  match r.cmd with
  | .get key => ∃ s, executeGetCommand env r.before key d = .ok (latest history key.scalar, s)
  | .del key => Appended r.client.builder (cstr "+OK\r\n") r.reply.builder ↔ (latest history key.scalar).isSome
  | _ => True

/-- Every request of a run of dictionary commands is answered as it should. -/
def DictLaw (env : Env) (d : Nat) (ok : Request → Prop) (start : Server) : Prop :=
  ∀ history r later s,
    Run (Request.Step fun r => r.Executed env d ∧ r.OnDict ∧ ok r) start (history ++ r :: later) s →
    r.AnsweredBy env d history

/-- The key is clear of every key stored in the database at that moment. -/
def Request.DictClear (env : Env) (d : Nat) (r : Request) : Prop :=
  ∀ key db, r.cmd.dictKey = some key → r.before.db[d]? = some db → ∀ entry ∈ db.dict.items, ClearOf env key entry.key

section Steps

variable {env : Env} {d : Nat}

/-- The dictionary of database `d` is a placed table of well-formed scalar keys
that holds these bindings. -/
structure HoldsDict (env : Env) (d : Nat) (map : Option Scalar → Option Object) (s : Server) (db : Lexidb) : Prop where
  found : s.db[d]? = some db
  placed : db.dict.Placed (objectOps env)
  maps : db.dict.Maps Object.scalar map
  scalars : ∀ entry ∈ db.dict.items, entry.key.scalar.isSome ∧ entry.key.StringValid

private theorem HoldsDict.tells {r : Request} (holds : HoldsDict env d map r.before db)
    (clear : r.DictClear env d) (named : r.cmd.dictKey = some key) (scalar : key.scalar.isSome)
    (valid : key.StringValid) : db.dict.Tells (objectOps env) Object.scalar key where
  agrees entry member :=
    (clear key db named holds.found entry member).compare valid (holds.scalars entry member).2 scalar
      (holds.scalars entry member).1
  hashed entry member same := (clear key db named holds.found entry member).raw_eq scalar same

private theorem dictKey_valid {r : Request} (executed : r.Executed env d) (named : r.cmd.dictKey = some key) :
    key.StringValid := by
  refine parse_args (P := Object.StringValid)
    (fun _ _ _ _ parsed => parseObject_stringValid executed.grants.supply parsed) trivial executed.parsed key ?_
  cases cmd : r.cmd <;> simp_all [Cmd.dictKey, Cmd.args]

section Commands

variable {r : Request} (holds : HoldsDict env d map r.before db) (executed : r.Executed env d)
include holds executed

private theorem HoldsDict.set (cmd : r.cmd = .set key value) (scalar : key.scalar.isSome)
    (valid : key.StringValid) (tells : db.dict.Tells (objectOps env) Object.scalar key) :
    ∃ after, HoldsDict env d (Function.update map key.scalar (some value)) r.after after := by
  have dispatched := executed.dispatched (by simp [cmd, Cmd.type])
  have found := holds.found
  rw [← executed.selected] at found
  obtain ⟨dict, inserted, maps⟩ := htInsert_maps holds.placed holds.maps tells executed.grants.resize value
  have placed := htInsert_placed holds.placed r.ans.resize key value
  have keys := htInsert_keys holds.placed r.ans.resize key value
  rw [inserted] at placed keys
  simp only [cmd, dispatch, executeSetCommand, onDb_found found, inserted, ok_bind, pure_eq_ok, Except.ok.injEq] at dispatched
  have after := congrArg (fun result => result.1.db) dispatched
  simp only [replyOk_db] at after
  refine ⟨{ db with dict := dict }, ?_, placed, maps, ?_⟩
  · rw [← after, ← executed.selected]
    exact set_db_getElem found _
  · intro entry member
    rcases keys entry member with same | ⟨old, present, same⟩
    · rw [same]
      exact ⟨scalar, valid⟩
    · rw [← same]
      exact holds.scalars old present

private theorem HoldsDict.get (cmd : r.cmd = .get key) (tells : db.dict.Tells (objectOps env) Object.scalar key) :
    (∃ s, executeGetCommand env r.before key d = .ok (map key.scalar, s)) ∧
      HoldsDict env d map r.after db := by
  have dispatched := executed.dispatched (by simp [cmd, Cmd.type])
  have found := holds.found
  rw [← executed.selected] at found
  have answer := htGet_maps holds.placed holds.maps tells
  have read : executeGetCommand env r.before key r.client.databaseNum = .ok (map key.scalar, r.before) := by
    rw [executeGetCommand, onDb_found found, set_db_self found, answer]
  simp only [cmd, dispatch, read, ok_bind] at dispatched
  obtain ⟨n, same⟩ := replyObject_recount dispatched
  rw [executed.selected] at read
  exact ⟨⟨_, read⟩, by rw [same]; exact holds.found, holds.placed, holds.maps, holds.scalars⟩

private theorem HoldsDict.del (cmd : r.cmd = .del key) (tells : db.dict.Tells (objectOps env) Object.scalar key) :
    (Appended r.client.builder (cstr "+OK\r\n") r.reply.builder ↔ (map key.scalar).isSome) ∧
      ∃ after, HoldsDict env d (Function.update map key.scalar none) r.after after := by
  have dispatched := executed.dispatched (by simp [cmd, Cmd.type])
  have found := holds.found
  rw [← executed.selected] at found
  obtain ⟨removed, maps⟩ := htDelete_maps holds.placed holds.maps tells
  have placed := htDelete_placed holds.placed key
  have subset := htDelete_subset holds.placed key
  generalize outcome : htDelete (objectOps env) db.dict key = result at removed maps placed subset
  obtain ⟨res, dict⟩ := result
  simp only [cmd, dispatch, executeDelCommand, onDb_found found, outcome, ok_bind, pure_eq_ok, Except.ok.injEq] at dispatched
  have after := congrArg (fun result => result.1.db) dispatched
  have client := congrArg (fun result => result.2.builder) dispatched
  simp only [replyOk_db] at after client
  refine ⟨?_, { db with dict := dict }, ?_, placed, maps, fun entry member => holds.scalars entry (subset entry member)⟩
  · rw [← client, replyOk_appends executed.grants.reply executed.builder executed.room _ (by decide)]
    rw [show res = _ from removed]
    cases (map key.scalar).isSome <;> simp
  · rw [← after, ← executed.selected]
    exact set_db_getElem found _

end Commands

/-- One request: it is answered by the bindings so far, and leaves the bindings
it makes. -/
theorem HoldsDict.step {r : Request} (holds : HoldsDict env d (latest history) r.before db)
    (executed : r.Executed env d) (onDict : r.OnDict) (clear : r.DictClear env d) :
    r.AnsweredBy env d history ∧ ∃ after, HoldsDict env d (latest (history ++ [r])) r.after after := by
  obtain ⟨key, named, scalar⟩ := onDict
  have valid := dictKey_valid executed named
  have tells := holds.tells clear named scalar valid
  have grown : latest (history ++ [r]) = r.cmd.rebind (latest history) := by simp [latest]
  rw [grown]
  cases cmd : r.cmd with
  | set other value =>
    simp only [cmd, Cmd.dictKey, Option.some.injEq] at named
    subst named
    exact ⟨by simp [Request.AnsweredBy, cmd], holds.set executed cmd scalar valid tells⟩
  | get other =>
    simp only [cmd, Cmd.dictKey, Option.some.injEq] at named
    subst named
    obtain ⟨answer, kept⟩ := holds.get executed cmd tells
    exact ⟨by simpa only [Request.AnsweredBy, cmd] using answer, db, kept⟩
  | del other =>
    simp only [cmd, Cmd.dictKey, Option.some.injEq] at named
    subst named
    obtain ⟨answer, kept⟩ := holds.del executed cmd tells
    exact ⟨by simpa only [Request.AnsweredBy, cmd] using answer, kept⟩
  | _ => simp [cmd, Cmd.dictKey] at named

/-- As long as every key requested is clear of the stored ones, the dictionary
of a fresh database is the map from key values to their latest bindings. -/
theorem dictLaw_of_clear (start : Server) (found : start.db[d]? = some db) (fresh : db.dict = htNew seed table) :
    DictLaw env d (Request.DictClear env d) start := by
  have invariant : ∀ history s,
      Run (Request.Step fun r => r.Executed env d ∧ r.OnDict ∧ r.DictClear env d) start history s →
      ∃ db, HoldsDict env d (latest history) s db := by
    intro history s run
    refine run.invariant (fun history s => ∃ db, HoldsDict env d (latest history) s db) ?_ ?_
    · refine ⟨db, found, by rw [fresh]; exact htNew_placed _ _ _, ?_, by simp [fresh]⟩
      rw [Ht.Maps, fresh, htNew_items]
      exact .empty
    · rintro history s r t ⟨db, holds⟩ ⟨rfl, rfl, executed, onDict, clear⟩
      exact (holds.step executed onDict clear).2
  intro history r later s run
  obtain ⟨s, t, front, rfl, rfl, executed, onDict, clear⟩ := run.split history r later rfl
  obtain ⟨db, holds⟩ := invariant history _ front
  exact (holds.step executed onDict clear).1

end Steps

section Runs

private def setAbc : List UInt8 := cstr "*3\r\n$3\r\nSET\r\n$3\r\nabc\r\n:1\r\n"

private def getAbc : List UInt8 := cstr "*2\r\n+GET\r\n+abc\r\n"

/-- A short key sent as a bulk string is found again when sent as a simple
string. -/
theorem dictLaw_of_clear_short :
    (sent (sent oneDatabase 1 setAbc).after 2 getAbc).AnsweredBy .sample 0 [sent oneDatabase 1 setAbc] := by
  have first : (sent oneDatabase 1 setAbc).Executed .sample 0 := sent_executed rfl rfl
  have second : (sent (sent oneDatabase 1 setAbc).after 2 getAbc).Executed .sample 0 := sent_executed rfl rfl
  refine dictLaw_of_clear oneDatabase rfl rfl _ _ [] _
    (.next (.next .start ⟨rfl, rfl, first, ⟨_, rfl, rfl⟩, ?_⟩) ⟨rfl, rfl, second, ⟨_, rfl, rfl⟩, ?_⟩)
  · intro key db _ found entry member
    cases found
    cases member
  · intro key db named found entry member
    cases found
    cases named
    obtain ⟨⟩ | ⟨_, ⟨⟩⟩ := member
    rintro x y ⟨⟩ ⟨⟩
    exact ⟨fun _ => rfl, fun different => absurd rfl different⟩

private def setLong : List UInt8 := cstr "*3\r\n$3\r\nSET\r\n$23\r\naaaaaaaaaaaaaaaaaaaaaaa\r\n:1\r\n"

private def getLong : List UInt8 := cstr "*2\r\n$3\r\nGET\r\n$23\r\naaaaaaaaaaaaaaaaaaaaaaa\r\n"

/-- The 23 bytes as `parse_string` holds them, at this address. -/
private def longKey (address : Nat) : Object :=
  .string ⟨.lg ⟨address, List.replicate 23 (ascii 'a') ++ [0, 0], 25, 23⟩, 0⟩

/-- A key of 23 bytes lives on the heap, and its struct, which is hashed, holds
the address: the GET is answered with nothing. -/
theorem dictLaw_counterexample : ¬ DictLaw .sample 0 (fun _ => True) oneDatabase := by
  intro law
  have first : (sent oneDatabase 1 setLong).Executed .sample 0 := sent_executed rfl rfl
  have second : (sent (sent oneDatabase 1 setLong).after 2 getLong).Executed .sample 0 := sent_executed rfl rfl
  have answered : ∃ s, executeGetCommand .sample (sent oneDatabase 1 setLong).after (longKey 2) 0 =
      .ok (latest [sent oneDatabase 1 setLong] (longKey 2).scalar, s) :=
    law [sent oneDatabase 1 setLong] (sent (sent oneDatabase 1 setLong).after 2 getLong) [] _
      (.next (.next .start ⟨rfl, rfl, first, ⟨_, rfl, rfl⟩, trivial⟩) ⟨rfl, rfl, second, ⟨_, rfl, rfl⟩, trivial⟩)
  have missed : ∃ t, executeGetCommand .sample (sent oneDatabase 1 setLong).after (longKey 2) 0 = .ok (none, t) :=
    ⟨_, rfl⟩
  have bound : latest [sent oneDatabase 1 setLong] (longKey 2).scalar = some (.int 1) := rfl
  obtain ⟨s, found⟩ := answered
  obtain ⟨t, nothing⟩ := missed
  rw [bound, nothing] at found
  cases found

end Runs

end LexiDB
