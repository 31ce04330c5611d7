import LexiDB.Requests
import LexiDB.TableRefinement

/-! ZSET, ZHAS and ZDEL on one database against a finite set of values. -/

namespace LexiDB

open Lib

/-- The value of a set command. -/
def Cmd.setValue : Cmd → Option Object
  | .zset value | .zhas value | .zdel value => some value
  | _ => none

/-- A ZSET, ZHAS or ZDEL of an Int, Bool or String value. -/
def Request.OnSet (r : Request) : Prop := ∃ value, r.cmd.setValue = some value ∧ value.scalar.isSome

/-- What a command makes of the members. -/
def Cmd.remember (map : Option Scalar → Option Unit) : Cmd → Option Scalar → Option Unit
  | .zset value => Function.update map value.scalar (some ())
  | .zdel value => Function.update map value.scalar none
  | _ => map

/-- The members after these commands: the values with a ZSET that no ZDEL came
after. -/
def members (history : List Request) : Option Scalar → Option Unit :=
  history.foldl (fun map r => r.cmd.remember map) fun _ => none

/-- The request was answered as the members of its history demand. -/
def Request.MemberAnswer (history : List Request) (r : Request) : Prop :=
  match r.cmd with
  | .zhas value => Appended r.client.builder (cstr ":1\r\n") r.reply.builder ↔ (members history value.scalar).isSome
  | .zdel value => Appended r.client.builder (cstr "+OK\r\n") r.reply.builder ↔ (members history value.scalar).isSome
  | _ => True

/-- Every request of a run of set commands is answered as it should, and at
every point the set counts its distinct members. -/
def SetLaw (env : Env) (d : Nat) (ok : Request → Prop) (start : Server) : Prop :=
  ∀ history s, Run (Request.Step fun r => r.Executed env d ∧ r.OnSet ∧ ok r) start history s →
    (∀ front r back, history = front ++ r :: back → r.MemberAnswer front) ∧
      ∃ db, s.db[d]? = some db ∧ setLen db.set = {value | (members history value).isSome}.ncard

/-- The value is clear of every element stored in the database at that moment. -/
def Request.SetClear (env : Env) (d : Nat) (r : Request) : Prop :=
  ∀ value db, r.cmd.setValue = some value → r.before.db[d]? = some db →
    ∀ stored ∈ db.set.items, ClearOf env value stored

section Steps

variable {env : Env} {d : Nat}

/-- The set of database `d` is a placed table of well-formed scalars, and these
are its members. -/
structure HoldsSet (env : Env) (d : Nat) (map : Option Scalar → Option Unit) (s : Server) (db : Lexidb) : Prop where
  found : s.db[d]? = some db
  placed : db.set.Placed (objectOps env)
  maps : db.set.Maps Object.scalar map
  scalars : ∀ stored ∈ db.set.items, stored.scalar.isSome ∧ stored.StringValid

private theorem HoldsSet.tells {r : Request} (holds : HoldsSet env d map r.before db) (clear : r.SetClear env d)
    (named : r.cmd.setValue = some value) (scalar : value.scalar.isSome) (valid : value.StringValid) :
    db.set.Tells (objectOps env) Object.scalar value where
  agrees stored member :=
    (clear value db named holds.found stored member).compare valid (holds.scalars stored member).2 scalar
      (holds.scalars stored member).1
  hashed stored member same := (clear value db named holds.found stored member).raw_eq scalar same

private theorem setValue_valid {r : Request} (executed : r.Executed env d) (named : r.cmd.setValue = some value) :
    value.StringValid := by
  refine parse_args (P := Object.StringValid)
    (fun _ _ _ _ parsed => parseObject_stringValid executed.grants.supply parsed) trivial executed.parsed value ?_
  cases cmd : r.cmd <;> simp_all [Cmd.setValue, Cmd.args]

section Commands

variable {r : Request} (holds : HoldsSet env d map r.before db) (executed : r.Executed env d)
include holds executed

private theorem HoldsSet.zset (cmd : r.cmd = .zset value) (scalar : value.scalar.isSome)
    (valid : value.StringValid) (tells : db.set.Tells (objectOps env) Object.scalar value) :
    ∃ after, HoldsSet env d (Function.update map value.scalar (some ())) r.after after := by
  have dispatched := executed.dispatched (by simp [cmd, Cmd.type])
  have found := holds.found
  rw [← executed.selected] at found
  obtain ⟨set, inserted, placed, maps⟩ :=
    setInsert_maps holds.placed holds.maps tells executed.grants.setResize executed.grants.setEntry
  have items := setInsert_items holds.placed r.ans.set value
  rw [inserted] at items
  simp only [cmd, dispatch, executeZsetCommand, onDb_found found, inserted, ok_bind, pure_eq_ok, Except.ok.injEq] at dispatched
  have after := congrArg (fun result => result.1.db) dispatched
  simp only [replyOk_db] at after
  refine ⟨{ db with set := set }, ?_, placed, maps, ?_⟩
  · rw [← after, ← executed.selected]
    exact set_db_getElem found _
  · intro stored member
    rcases items stored member with same | old
    · rw [same]
      exact ⟨scalar, valid⟩
    · exact holds.scalars stored old

private theorem HoldsSet.zhas (cmd : r.cmd = .zhas value) (tells : db.set.Tells (objectOps env) Object.scalar value) :
    (Appended r.client.builder (cstr ":1\r\n") r.reply.builder ↔ (map value.scalar).isSome) ∧
      HoldsSet env d map r.after db := by
  have dispatched := executed.dispatched (by simp [cmd, Cmd.type])
  have found := holds.found
  rw [← executed.selected] at found
  have read : executeZhasCommand env r.before value r.client.databaseNum = .ok ((map value.scalar).isSome, r.before) := by
    rw [executeZhasCommand, onDb_found found, set_db_self found, setHas_maps holds.placed holds.maps tells]
  simp only [cmd, dispatch, read, ok_bind] at dispatched
  cases member : (map value.scalar).isSome with
  | true =>
    obtain ⟨after, added, appended⟩ := builderAddInt_spec executed.grants.reply executed.builder 1
      (executed.room.le (by decide))
    simp only [member, ↓reduceIte, added, ok_bind, pure_eq_ok, Except.ok.injEq, Prod.mk.injEq] at dispatched
    obtain ⟨server, client⟩ := dispatched
    refine ⟨?_, ?_⟩
    · rw [← client]
      exact iff_of_true appended rfl
    · exact ⟨by rw [← server]; exact holds.found, holds.placed, holds.maps, holds.scalars⟩
  | false =>
    have none := addNone_appends executed.grants.reply executed.builder executed.room
    simp only [member, Bool.false_eq_true, ↓reduceIte, pure_eq_ok, Except.ok.injEq, Prod.mk.injEq] at dispatched
    obtain ⟨server, client⟩ := dispatched
    refine ⟨?_, ?_⟩
    · rw [← client]
      refine iff_of_false (fun claimed => ?_) (by simp)
      exact absurd (claimed.text_eq none) (by decide)
    · exact ⟨by rw [← server]; exact holds.found, holds.placed, holds.maps, holds.scalars⟩

private theorem HoldsSet.zdel (cmd : r.cmd = .zdel value) (tells : db.set.Tells (objectOps env) Object.scalar value) :
    (Appended r.client.builder (cstr "+OK\r\n") r.reply.builder ↔ (map value.scalar).isSome) ∧
      ∃ after, HoldsSet env d (Function.update map value.scalar none) r.after after := by
  have dispatched := executed.dispatched (by simp [cmd, Cmd.type])
  have found := holds.found
  rw [← executed.selected] at found
  obtain ⟨removed, placed, maps⟩ := setDelete_maps holds.placed holds.maps tells
  have subset := setDelete_subset holds.placed value
  generalize outcome : setDelete (objectOps env) db.set value = result at removed maps placed subset
  obtain ⟨res, set⟩ := result
  simp only [cmd, dispatch, executeZdelCommand, onDb_found found, outcome, ok_bind, pure_eq_ok, Except.ok.injEq] at dispatched
  have after := congrArg (fun result => result.1.db) dispatched
  have client := congrArg (fun result => result.2.builder) dispatched
  simp only [replyOk_db] at after client
  refine ⟨?_, { db with set := set }, ?_, placed, maps, fun stored member => holds.scalars stored (subset stored member)⟩
  · rw [← client, replyOk_appends executed.grants.reply executed.builder executed.room _ (by decide)]
    rw [show res = _ from removed]
    cases (map value.scalar).isSome <;> simp
  · rw [← after, ← executed.selected]
    exact set_db_getElem found _

end Commands

/-- One request: it is answered by the members so far, and leaves the members it
makes. -/
theorem HoldsSet.step {r : Request} (holds : HoldsSet env d (members history) r.before db)
    (executed : r.Executed env d) (onSet : r.OnSet) (clear : r.SetClear env d) :
    r.MemberAnswer history ∧ ∃ after, HoldsSet env d (members (history ++ [r])) r.after after := by
  obtain ⟨value, named, scalar⟩ := onSet
  have valid := setValue_valid executed named
  have tells := holds.tells clear named scalar valid
  have grown : members (history ++ [r]) = r.cmd.remember (members history) := by simp [members]
  rw [grown]
  cases cmd : r.cmd with
  | zset other =>
    simp only [cmd, Cmd.setValue, Option.some.injEq] at named
    subst named
    exact ⟨by simp [Request.MemberAnswer, cmd], holds.zset executed cmd scalar valid tells⟩
  | zhas other =>
    simp only [cmd, Cmd.setValue, Option.some.injEq] at named
    subst named
    obtain ⟨answer, kept⟩ := holds.zhas executed cmd tells
    exact ⟨by simpa only [Request.MemberAnswer, cmd] using answer, db, kept⟩
  | zdel other =>
    simp only [cmd, Cmd.setValue, Option.some.injEq] at named
    subst named
    obtain ⟨answer, kept⟩ := holds.zdel executed cmd tells
    exact ⟨by simpa only [Request.MemberAnswer, cmd] using answer, kept⟩
  | _ => simp [cmd, Cmd.setValue] at named

/-- As long as every value requested is clear of the stored ones, the set of a
fresh database is the set of the values added and not deleted since. -/
theorem setLaw_of_clear (start : Server) (found : start.db[d]? = some db) (fresh : db.set = setNew seed) :
    SetLaw env d (Request.SetClear env d) start := by
  have invariant : ∀ history s,
      Run (Request.Step fun r => r.Executed env d ∧ r.OnSet ∧ r.SetClear env d) start history s →
      ∃ db, HoldsSet env d (members history) s db := by
    intro history s run
    refine run.invariant (fun history s => ∃ db, HoldsSet env d (members history) s db) ?_ ?_
    · refine ⟨db, found, by rw [fresh]; exact setNew_placed _ _, ?_, by simp [fresh]⟩
      rw [LexiSet.Maps, fresh, setNew_items]
      exact .empty
    · rintro history s r t ⟨db, holds⟩ ⟨rfl, rfl, executed, onSet, clear⟩
      exact (holds.step executed onSet clear).2
  intro history s run
  refine ⟨?_, ?_⟩
  · intro front r back cut
    obtain ⟨s, t, before, rfl, rfl, executed, onSet, clear⟩ := run.split front r back cut
    obtain ⟨db, holds⟩ := invariant front _ before
    exact (holds.step executed onSet clear).1
  · obtain ⟨db, holds⟩ := invariant history s run
    refine ⟨db, holds.found, ?_⟩
    rw [setLen, holds.placed.count]
    exact holds.maps.card.symm

end Steps

section Runs

private def zsetSeven : List UInt8 := cstr "*2\r\n$4\r\nZSET\r\n:7\r\n"

private def zhasSeven : List UInt8 := cstr "*2\r\n+ZHAS\r\n:7\r\n"

/-- A number is a member after its ZSET. -/
theorem setLaw_of_clear_int :
    (sent (sent oneDatabase 1 zsetSeven).after 2 zhasSeven).MemberAnswer [sent oneDatabase 1 zsetSeven] := by
  have first : (sent oneDatabase 1 zsetSeven).Executed .sample 0 := sent_executed rfl rfl
  have second : (sent (sent oneDatabase 1 zsetSeven).after 2 zhasSeven).Executed .sample 0 := sent_executed rfl rfl
  refine (setLaw_of_clear oneDatabase rfl rfl [sent oneDatabase 1 zsetSeven,
    sent (sent oneDatabase 1 zsetSeven).after 2 zhasSeven] _
    (.next (.next .start ⟨rfl, rfl, first, ⟨_, rfl, rfl⟩, ?_⟩) ⟨rfl, rfl, second, ⟨_, rfl, rfl⟩, ?_⟩)).1 _ _ [] rfl
  · intro value db named found stored member
    cases found
    cases named
    obtain ⟨⟩ | ⟨_, ⟨⟩⟩ := member
    rintro x y ⟨⟩ ⟨⟩
    exact ⟨fun _ => rfl, fun different => absurd rfl different⟩
  · intro value db _ found stored member
    cases found
    cases member

private def zsetLong : List UInt8 := cstr "*2\r\n$4\r\nZSET\r\n$23\r\naaaaaaaaaaaaaaaaaaaaaaa\r\n"

private def zhasLong : List UInt8 := cstr "*2\r\n$4\r\nZHAS\r\n$23\r\naaaaaaaaaaaaaaaaaaaaaaa\r\n"

/-- A value of 23 bytes is hashed with the address of its heap buffer: the ZHAS
that follows its ZSET does not find it. -/
theorem setLaw_counterexample : ¬ SetLaw .sample 0 (fun _ => True) oneDatabase := by
  intro law
  have first : (sent oneDatabase 1 zsetLong).Executed .sample 0 := sent_executed rfl rfl
  have second : (sent (sent oneDatabase 1 zsetLong).after 2 zhasLong).Executed .sample 0 := sent_executed rfl rfl
  have answered : Appended builderNew (cstr ":1\r\n") (sent (sent oneDatabase 1 zsetLong).after 2 zhasLong).reply.builder ↔
      (members [sent oneDatabase 1 zsetLong] (some (.string (List.replicate 23 (ascii 'a'))))).isSome = true :=
    (law [sent oneDatabase 1 zsetLong, sent (sent oneDatabase 1 zsetLong).after 2 zhasLong] _
      (.next (.next .start ⟨rfl, rfl, first, ⟨_, rfl, rfl⟩, trivial⟩)
        ⟨rfl, rfl, second, ⟨_, rfl, rfl⟩, trivial⟩)).1 [sent oneDatabase 1 zsetLong] _ [] rfl
  have member : (members [sent oneDatabase 1 zsetLong] (some (.string (List.replicate 23 (ascii 'a'))))).isSome = true := rfl
  have replied : (sent (sent oneDatabase 1 zsetLong).after 2 zhasLong).reply.builder.bytes = cstr "+NONE\r\n" := rfl
  have claimed := (answered.mpr member).bytes
  rw [replied] at claimed
  exact absurd claimed (by decide)

end Runs

end LexiDB
