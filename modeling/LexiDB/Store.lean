import LexiDB.Dictionary
import LexiDB.Members
import LexiDB.Replies

/-! What a database is for: bindings, members, a stack and a queue, with the answer
to every command, and why the tables of server.c stand for them. -/

namespace LexiDB

open Lib

/-- A database as its clients think of it. The top of the stack is its last value,
the next of the queue its first. -/
structure Store where
  dict : Option Scalar → Option Object
  set : Option Scalar → Option Unit
  stack : List Object
  queue : List Object

def Store.empty : Store := ⟨fun _ => none, fun _ => none, [], []⟩

def Cmd.restack (stack : List Object) : Cmd → List Object
  | .push value => stack ++ [value]
  | .pop => stack.dropLast
  | _ => stack

def Cmd.requeue (queue : List Object) : Cmd → List Object
  | .enque value => queue ++ [value]
  | .deque => queue.tail
  | _ => queue

/-- What a command makes of the store. -/
def Store.act (a : Store) (cmd : Cmd) : Store :=
  ⟨cmd.rebind a.dict, cmd.remember a.set, cmd.restack a.stack, cmd.requeue a.queue⟩

section Replies

def okLine : List UInt8 := cstr "+OK\r\n"

def noneLine : List UInt8 := cstr "+NONE\r\n"

def errLine (err : List UInt8) : List UInt8 := simpleErrTypeByte :: err ++ crlf

/-- The answer to a command that hands out a value. -/
inductive Yields : Option Object → List UInt8 → Prop where
  | nothing : Yields none noneLine
  | value (encodes : Encodes obj text) : Yields (some obj) text

/-- What a command is answered with. The replies to AUTH, INFO and KEYS are not
those of a store. -/
def Store.Reply (a : Store) (numDatabases : Nat) (text : List UInt8) : Cmd → Prop
  | .okc => text = []
  | .ping => text = cstr "+PONG\r\n"
  | .select value => text = if value.num.toUInt64.toNat < numDatabases then okLine else errLine errDbrange
  | .set _ _ | .push _ | .enque _ | .zset _ => text = okLine
  | .get key => Yields (a.dict key.scalar) text
  | .pop => Yields a.stack.getLast? text
  | .deque => Yields a.queue.head? text
  | .del key => text = if (a.dict key.scalar).isSome then okLine else errLine errInvalidKey
  | .zhas value => text = if (a.set value.scalar).isSome then (Value.int 1).wire else noneLine
  | .zdel value => text = if (a.set value.scalar).isSome then okLine else errLine errInvalidKey
  | .illegal | .help _ _ => text = errLine errInvalidCommand
  | .auth _ _ | .infoc | .keys => True

end Replies

/-- An object that a command may hand out. -/
def Store.Yielded (a : Store) (obj : Object) : Prop :=
  (∃ key, a.dict key = some obj) ∨ obj ∈ a.stack ∨ obj ∈ a.queue

/-- The structures of the database hold what the store says, and only objects that
can be sent. -/
structure Lexidb.Stands (env : Env) (db : Lexidb) (a : Store) : Prop where
  dictPlaced : db.dict.Placed (objectOps env)
  dict : db.dict.Maps Object.scalar a.dict
  keys : ∀ entry ∈ db.dict.items, entry.key.scalar.isSome ∧ entry.key.StringValid
  setPlaced : db.set.Placed (objectOps env)
  set : db.set.Maps Object.scalar a.set
  elems : ∀ stored ∈ db.set.items, stored.scalar.isSome ∧ stored.StringValid
  holds : db.Holds a.stack a.queue
  sends : ∀ obj, a.Yielded obj → obj.Sendable ∧ obj.Built

/-- The objects that a command leaves in its database to be handed out. -/
def Cmd.kept : Cmd → List Object
  | .set _ value | .push value | .enque value => [value]
  | _ => []

/-- What is kept can be sent back, and the key or element is a scalar clear of all
those stored at that moment. -/
structure Cmd.Fit (env : Env) (cmd : Cmd) (db : Lexidb) : Prop where
  kept : ∀ obj ∈ cmd.kept, obj.Sendable ∧ obj.Built
  key : ∀ key, cmd.dictKey = some key → key.scalar.isSome ∧ ∀ entry ∈ db.dict.items, ClearOf env key entry.key
  value : ∀ value, cmd.setValue = some value → value.scalar.isSome ∧ ∀ stored ∈ db.set.items, ClearOf env value stored

section Steps

variable {env : Env} {ans : Answers} {db : Lexidb} {a : Store} {cmd : Cmd}

theorem lexidbNew_stands {mem : Nat → LexidbMem} (env : Env) {d : Nat} (found : (lexidbNew mem n)[d]? = some db) :
    db.Stands env .empty := by
  rw [lexidbNew_getElem found]
  refine ⟨htNew_placed _ _ _, ?_, by simp, setNew_placed _ _, ?_, by simp, ⟨vecNew_valid _, rfl, [], queueNew_holds, rfl⟩, ?_⟩
  · rw [Ht.Maps, htNew_items]
    exact .empty
  · rw [LexiSet.Maps, setNew_items]
    exact .empty
  · rintro obj (⟨key, bound⟩ | member | member)
    · cases bound
    · cases member
    · cases member

/-- A command binds and keeps only what it was given. -/
theorem Store.act_yielded (yielded : (a.act cmd).Yielded obj) : a.Yielded obj ∨ obj ∈ cmd.kept := by
  rcases yielded with ⟨key, bound⟩ | member | member
  · cases cmd with
    | set other value =>
      simp only [act, Cmd.rebind, Function.update_apply] at bound
      split at bound
      · cases bound
        exact .inr (by simp [Cmd.kept])
      · exact .inl (.inl ⟨key, bound⟩)
    | del other =>
      simp only [act, Cmd.rebind, Function.update_apply] at bound
      split at bound
      · cases bound
      · exact .inl (.inl ⟨key, bound⟩)
    | _ => exact .inl (.inl ⟨key, bound⟩)
  · cases cmd with
    | push value =>
      rcases List.mem_append.mp member with old | new
      · exact .inl (.inr (.inl old))
      · exact .inr new
    | pop => exact .inl (.inr (.inl (List.mem_of_mem_dropLast member)))
    | _ => exact .inl (.inr (.inl member))
  · cases cmd with
    | enque value =>
      rcases List.mem_append.mp member with old | new
      · exact .inl (.inr (.inr old))
      · exact .inr new
    | deque => exact .inl (.inr (.inr (List.mem_of_mem_tail member)))
    | _ => exact .inl (.inr (.inr member))

variable (stands : db.Stands env a) (fit : cmd.Fit env db) (strings : ∀ obj ∈ cmd.args, obj.StringValid)
include stands fit strings

private theorem Lexidb.Stands.tellsKey (named : cmd.dictKey = some key) : db.dict.Tells (objectOps env) Object.scalar key := by
  obtain ⟨scalar, clear⟩ := fit.key key named
  have valid : key.StringValid := by
    refine strings key ?_
    cases cmd <;> simp_all [Cmd.dictKey, Cmd.args]
  exact ⟨fun entry member => (clear entry member).compare valid (stands.keys entry member).2 scalar (stands.keys entry member).1,
    fun entry member same => (clear entry member).raw_eq scalar same⟩

private theorem Lexidb.Stands.tellsValue (named : cmd.setValue = some value) :
    db.set.Tells (objectOps env) Object.scalar value := by
  obtain ⟨scalar, clear⟩ := fit.value value named
  have valid : value.StringValid := by
    refine strings value ?_
    cases cmd <;> simp_all [Cmd.setValue, Cmd.args]
  exact ⟨fun stored member => (clear stored member).compare valid (stands.elems stored member).2 scalar (stands.elems stored member).1,
    fun stored member same => (clear stored member).raw_eq scalar same⟩

/-- The operation of a command on its database is the action on the store. -/
theorem Lexidb.Stands.operate (grants : ans.Grants) (unused : ∀ node, ans.node = some node → db.queue.nodes node = none) :
    (cmd.operate env ans db).Stands env (a.act cmd) := by
  have holds : (cmd.operate env ans db).Holds (a.act cmd).stack (a.act cmd).queue := by
    have kept : (cmd.operate env ans db).Holds _ _ :=
      Lexidb.Holds.operate (a := ⟨fun _ => a.stack, fun _ => a.queue, fun _ => [], fun _ => []⟩) (d := 0) stands.holds grants unused cmd
    cases cmd <;> simpa only [Shelves.act, Function.update_self, Store.act, Cmd.restack, Cmd.requeue] using kept
  have sends : ∀ obj, (a.act cmd).Yielded obj → obj.Sendable ∧ obj.Built := by
    intro obj yielded
    rcases Store.act_yielded yielded with old | arg
    · exact stands.sends obj old
    · exact fit.kept obj arg
  have rest := stands
  obtain ⟨dictPlaced, dict, keys, setPlaced, set, elems, _, _⟩ := rest
  cases cmd with
  | set key value =>
    have tells := stands.tellsKey fit strings rfl
    obtain ⟨dict', inserted, maps⟩ := htInsert_maps dictPlaced dict tells grants.resize value
    have placed := htInsert_placed dictPlaced ans.resize key value
    have stored := htInsert_keys dictPlaced ans.resize key value
    refine ⟨placed, ?_, ?_, setPlaced, set, elems, holds, sends⟩
    · simpa only [Cmd.operate, inserted, Store.act, Cmd.rebind] using maps
    · intro entry member
      rcases stored entry member with same | ⟨old, present, same⟩
      · rw [same]
        exact ⟨(fit.key key rfl).1, strings key (by simp [Cmd.args])⟩
      · rw [← same]
        exact keys old present
  | del key =>
    obtain ⟨_, maps⟩ := htDelete_maps dictPlaced dict (stands.tellsKey fit strings rfl)
    exact ⟨htDelete_placed dictPlaced key, maps, fun entry member => keys entry (htDelete_subset dictPlaced key entry member),
      setPlaced, set, elems, holds, sends⟩
  | zset value =>
    obtain ⟨set', inserted, placed, maps⟩ :=
      setInsert_maps setPlaced set (stands.tellsValue fit strings rfl) grants.setResize grants.setEntry
    have stored := setInsert_items setPlaced ans.set value
    refine ⟨dictPlaced, dict, keys, ?_, ?_, ?_, holds, sends⟩
    · simpa only [Cmd.operate, inserted] using placed
    · simpa only [Cmd.operate, inserted, Store.act, Cmd.remember] using maps
    · intro elem member
      rcases stored elem member with same | old
      · rw [same]
        exact ⟨(fit.value value rfl).1, strings value (by simp [Cmd.args])⟩
      · exact elems elem old
  | zdel value =>
    obtain ⟨_, placed, maps⟩ := setDelete_maps setPlaced set (stands.tellsValue fit strings rfl)
    exact ⟨dictPlaced, dict, keys, placed, maps, fun elem member => elems elem (setDelete_subset setPlaced value elem member),
      holds, sends⟩
  | _ => exact ⟨dictPlaced, dict, keys, setPlaced, set, elems, holds, sends⟩

end Steps

section Answers

variable {env : Env} {ans : Answers} {s t : Server} {c d : Client} {db : Lexidb} {a : Store} {cmd : Cmd}

theorem addOk_line (grants : ans.Grants) (valid : c.builder.Valid) (room : Fits c.builder 32) :
    Appended c.builder okLine (c.addOk ans.reply).builder := addOk_appends grants.reply valid room

theorem addNone_line (grants : ans.Grants) (valid : c.builder.Valid) (room : Fits c.builder 32) :
    Appended c.builder noneLine (c.addNone ans.reply).builder := addNone_appends grants.reply valid room

theorem addErr_line (grants : ans.Grants) (valid : c.builder.Valid) (room : Fits c.builder 32) (listed : err ∈ serverErrors) :
    Appended c.builder (errLine err) (c.addErr ans.reply err).builder :=
  addErr_appends grants.reply valid room (serverErrors_short listed)

theorem replyOk_line (grants : ans.Grants) (valid : c.builder.Valid) (room : Fits c.builder 32) (listed : err ∈ serverErrors)
    (accepted : Bool) (done : replyOk ans s c accepted err = (t, d)) :
    Appended c.builder (if accepted then okLine else errLine err) d.builder := by
  rw [show d = (replyOk ans s c accepted err).2 by rw [done]]
  cases accepted with
  | true => exact addOk_line grants valid room
  | false => exact addErr_line grants valid room listed

/-- A value handed out is sent, for whichever fuel the reply is built with. -/
theorem replyObject_yields (grants : ans.Grants) (valid : c.builder.Valid) (room : Fits c.builder 32) {obj : Option Object}
    (sends : ∀ value, obj = some value → value.Sendable ∧ value.Built)
    (fits : ∀ value text, obj = some value → Encodes value text → Fits c.builder text.length)
    (done : replyObject env ans fuel s c obj = .ok (t, d)) : ∃ text, Appended c.builder text d.builder ∧ Yields obj text := by
  cases obj with
  | none =>
    cases done
    exact ⟨_, addNone_line grants valid room, .nothing⟩
  | some value =>
    obtain ⟨sendable, built⟩ := sends value rfl
    obtain ⟨text, encodes, enough, renders⟩ := sendable.sends env built grants.reply
    obtain ⟨after, added, appended⟩ := renders (enough + fuel) (Nat.le_add_right _ _) c.builder valid (fits value text rfl encodes)
    refine ⟨text, ?_, .value encodes⟩
    -- the fuel of the reply was enough as well, and enough fuels agree
    obtain ⟨res, shown, same⟩ := bind_eq_ok.mp done
    have more := (builderAddObject_mono c.builder value).ok_le shown (Nat.le_add_left fuel enough)
    rw [added] at more
    cases more
    cases same
    exact appended

/-- The builder can take a line, and anything the store may hand out. -/
structure Client.Takes (c : Client) (a : Store) : Prop where
  valid : c.builder.Valid
  line : Fits c.builder 32
  values : ∀ obj text, a.Yielded obj → Encodes obj text → Fits c.builder text.length

/-- The `switch` answers as the store demands. -/
theorem dispatch_replies (grants : ans.Grants) (takes : c.Takes a) (found : s.db[c.databaseNum]? = some db) (stands : db.Stands env a)
    (fit : cmd.Fit env db) (strings : ∀ obj ∈ cmd.args, obj.StringValid) (plain : cmd.type ≠ .auth ∧ cmd.type ≠ .infoc ∧ cmd.type ≠ .keys)
    (done : dispatch env ans fuel s c cmd = .ok (t, d)) :
    ∃ text, Appended c.builder text d.builder ∧ a.Reply s.numDatabases text cmd := by
  obtain ⟨valid, line, values⟩ := takes
  have object : ∀ {u : Server} {obj : Option Object}, (∀ value, obj = some value → a.Yielded value) →
      replyObject env ans fuel u c obj = .ok (t, d) → ∃ text, Appended c.builder text d.builder ∧ Yields obj text := by
    intro u obj yielded replied
    exact replyObject_yields grants valid line (fun value same => stands.sends value (yielded value same))
      (fun value text same => values value text (yielded value same)) replied
  cases cmd with
  | auth | infoc | keys => simp [Cmd.type] at plain
  | okc =>
    cases done
    exact ⟨[], .refl valid, rfl⟩
  | illegal | help =>
    cases done
    exact ⟨_, addErr_line grants valid line (by decide), rfl⟩
  | ping =>
    cases done
    obtain ⟨after, added, appended⟩ := pushString_appends grants.reply valid (cstr "+PONG\r\n") (line.le (by decide))
    refine ⟨_, ?_, rfl⟩
    simp only [Client.appended, builderAddPong, added]
    exact appended
  | select value =>
    simp only [dispatch] at done
    split at done
    · rename_i outside
      cases done
      exact ⟨_, addErr_line grants valid line (by decide), (if_neg (Nat.not_lt.mpr outside)).symm⟩
    · rename_i inside
      cases done
      refine ⟨_, ?_, (if_pos (Nat.not_le.mp inside)).symm⟩
      exact addOk_line (c := { c with databaseNum := _ }) grants valid line
  | set key value =>
    obtain ⟨dict, inserted, _⟩ := htInsert_maps stands.dictPlaced stands.dict (stands.tellsKey fit strings rfl) grants.resize value
    simp only [dispatch, executeSetCommand, onDb_found found, inserted, ok_bind, pure_eq_ok, Except.ok.injEq] at done
    exact ⟨_, replyOk_line grants valid line (by decide) _ done, by simp [Store.Reply]⟩
  | get key =>
    have answer := htGet_maps stands.dictPlaced stands.dict (stands.tellsKey fit strings rfl)
    simp only [dispatch, executeGetCommand, onDb_found found, answer, ok_bind] at done
    exact object (fun value bound => .inl ⟨_, bound⟩) done
  | del key =>
    obtain ⟨removed, _⟩ := htDelete_maps stands.dictPlaced stands.dict (stands.tellsKey fit strings rfl)
    simp only [dispatch, executeDelCommand, onDb_found found, removed, ok_bind, pure_eq_ok, Except.ok.injEq] at done
    refine ⟨_, replyOk_line grants valid line (by decide) _ done, ?_⟩
    by_cases bound : (a.dict key.scalar).isSome <;> simp [Store.Reply, bound]
  | push value =>
    obtain ⟨after, pushed, _⟩ := vecPush_spec stands.holds.valid (fun _ => grants.vec) value
    simp only [dispatch, executePushCommand, onDb_found found, pushed, ok_bind, pure_eq_ok, Except.ok.injEq] at done
    exact ⟨_, replyOk_line grants valid line (by decide) _ done, by simp [Store.Reply]⟩
  | pop =>
    obtain ⟨top, _, _⟩ := vecPop_spec stands.holds.valid
    rw [stands.holds.stack] at top
    simp only [dispatch, executePopCommand, onDb_found found, top, ok_bind] at done
    exact object (fun value last => .inr (.inl (List.mem_of_getLast? last))) done
  | enque value =>
    obtain ⟨node, granted⟩ := Option.isSome_iff_exists.mp grants.node
    have linked : (queueEnque (some node) db.queue value).1 = 0 := by
      simp only [queueEnque]
      split <;> rfl
    simp only [dispatch, executeEnqueCommand, onDb_found found, granted, linked, ok_bind, pure_eq_ok, Except.ok.injEq] at done
    exact ⟨_, replyOk_line grants valid line (by decide) _ done, by simp [Store.Reply]⟩
  | deque =>
    obtain ⟨cells, queue, same⟩ := stands.holds.queue
    have next : (queueDeque db.queue).1 = a.queue.head? := by
      cases cells with
      | nil => simp [queueDeque_empty queue, ← same]
      | cons cell cells =>
        obtain ⟨after, taken, _⟩ := queueDeque_spec queue
        simp [taken, ← same]
    simp only [dispatch, executeDequeCommand, onDb_found found, next, ok_bind] at done
    exact object (fun value first => .inr (.inr (List.mem_of_mem_head? first))) done
  | zset value =>
    obtain ⟨set, inserted, _⟩ :=
      setInsert_maps stands.setPlaced stands.set (stands.tellsValue fit strings rfl) grants.setResize grants.setEntry
    simp only [dispatch, executeZsetCommand, onDb_found found, inserted, ok_bind, pure_eq_ok, Except.ok.injEq] at done
    refine ⟨_, replyOk_line grants valid line (by decide) _ done, ?_⟩
    by_cases member : (a.set value.scalar).isSome <;> simp [Store.Reply, member]
  | zhas value =>
    have answer := setHas_maps stands.setPlaced stands.set (stands.tellsValue fit strings rfl)
    simp only [dispatch, executeZhasCommand, onDb_found found, answer, ok_bind] at done
    split at done
    · rename_i member
      obtain ⟨after, added, appended⟩ := builderAddInt_spec grants.reply valid 1 (line.le (by decide))
      simp only [added, ok_bind, pure_eq_ok, Except.ok.injEq, Prod.mk.injEq] at done
      obtain ⟨_, rfl⟩ := done
      exact ⟨_, appended, (if_pos member).symm⟩
    · rename_i missing
      cases done
      exact ⟨_, addNone_line grants valid line, (if_neg missing).symm⟩
  | zdel value =>
    obtain ⟨removed, _⟩ := setDelete_maps stands.setPlaced stands.set (stands.tellsValue fit strings rfl)
    simp only [dispatch, executeZdelCommand, onDb_found found, removed, ok_bind, pure_eq_ok, Except.ok.injEq] at done
    refine ⟨_, replyOk_line grants valid line (by decide) _ done, ?_⟩
    by_cases member : (a.set value.scalar).isSome <;> simp [Store.Reply, member]

end Answers

end LexiDB
