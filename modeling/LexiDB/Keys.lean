import LexiDB.Encoding
import LexiDB.Requests
import LexiDB.ParserInvariant

/-! The reply to KEYS, in every state the server can come to. -/

namespace LexiDB

open Lib

/-- Some client sent something, and `execute_cmd` returned. -/
def Serves (env : Env) (s : Server) (c : Client) (t : Server) : Prop :=
  ∃ ans fuel reply, executeCmd env ans fuel s c = .ok (t, reply)

/-- The databases as `lexidb_new` makes their dictionaries. -/
def Server.FreshDicts (s : Server) : Prop := ∀ db ∈ s.db, ∃ seed table, db.dict = htNew seed table

/-- `+NONE` for an empty dictionary, else an array of as many elements as its
header says, and these are the keys of the dictionary, each once. -/
def KeysReply (env : Env) (mem : Mem) (dict : Ht Object Object) (b after : Builder) : Prop :=
  (dict.items = [] → Appended b (cstr "+NONE\r\n") after) ∧
    (dict.items ≠ [] → ∃ order elems, order.Perm (dict.items.map HtEntry.key) ∧
      List.Forall₂ (Renders mem env) order elems ∧
      Appended b (arrayTypeByte :: decimal elems.length ++ crlf ++ elems.flatten) after)

/-- `execute_cmd` returns and leaves the reply for the selected database. -/
def KeysAnswered (env : Env) (ans : Answers) (s : Server) (c : Client) : Prop :=
  ∃ fuel t reply db, executeCmd env ans fuel s c = .ok (t, reply) ∧ s.db[c.databaseNum]? = some db ∧
    KeysReply env ans.reply db.dict c.builder reply.builder

/-- The keys of the first dictionary are sent as the same elements as the keys of
the second, up to their order. -/
def SameElements (env : Env) (mem : Mem) (walked dict : Ht Object Object) (elems : List (List UInt8)) : Prop :=
  List.Forall₂ (fun entry bytes => Renders mem env entry.key bytes) walked.items elems ∧
    ∃ order, order.Perm (dict.items.map HtEntry.key) ∧ List.Forall₂ (Renders mem env) order elems

section Reply

variable {env : Env} {mem : Mem}

/-- The loop appends one element for each entry the iterator still has. -/
theorem builderAddKeys_spec (ht : Ht Object Object) :
    ∀ (entries : List (HtEntry Object Object)) (elems : List (List UInt8)),
      List.Forall₂ (fun entry bytes => Renders mem env entry.key bytes) entries elems →
      ∃ enough, ∀ fuel, enough ≤ fuel → ∀ (iter : HtIter Object Object) (b : Builder), iter.At ht entries → b.Valid →
        Fits b elems.flatten.length →
        ∃ after, builderAddKeys env mem ht fuel iter b = .ok after ∧ Appended b elems.flatten after := by
  intro entries elems rendered
  induction rendered with
  | nil =>
    refine ⟨1, ?_⟩
    intro fuel enough iter b at_ valid _
    obtain ⟨less, rfl⟩ := Nat.exists_eq_add_of_le' enough
    exact ⟨b, by simp [builderAddKeys, at_.cur_nil.mpr rfl], .refl valid⟩
  | @cons entry bytes entries elems first _ ih =>
    obtain ⟨one, adds⟩ := first
    obtain ⟨more, loops⟩ := ih
    refine ⟨one + more + 1, ?_⟩
    intro fuel enough iter b at_ valid fits
    obtain ⟨less, rfl⟩ := Nat.exists_eq_add_of_le' enough
    rw [List.flatten_cons, List.length_append] at fits
    obtain ⟨middle, added, appended⟩ := adds (less + (one + more)) (by omega) b valid (fits.le (by omega))
    obtain ⟨after, looped, rest⟩ := loops (less + (one + more)) (by omega) (htIterNext ht iter) middle
      (htIterNext_at at_) appended.valid (fits.next appended rfl)
    have cur : ∃ tail, iter.cur = entry :: tail := by
      have heads := at_.2.1
      cases chain : iter.cur with
      | nil => simp [chain] at heads
      | cons head tail =>
        simp only [chain, List.head?_cons, Option.some.injEq] at heads
        exact ⟨tail, by rw [heads]⟩
    obtain ⟨tail, here⟩ := cur
    refine ⟨after, ?_, appended.trans rest⟩
    change builderAddKeys env mem ht (less + (one + more) + 1) iter b = _
    simp [builderAddKeys, here, added, looped]

end Reply

section Law

variable {env : Env}

/-- What every client history leaves behind. -/
theorem dictsPlaced_of_run {start s : Server} (fresh : start.FreshDicts) (run : Run (Serves env) start clients s) :
    s.DictsPlaced env := by
  refine run.invariant (fun _ s => s.DictsPlaced env) ?_ ?_
  · intro db member
    obtain ⟨seed, table, same⟩ := fresh db member
    rw [same]
    exact htNew_placed _ _ _
  · rintro _ s c t placed ⟨ans, fuel, reply, done⟩
    exact placed.step done

/-- In every reachable state KEYS is answered rightly if the selected dictionary
is empty, or the keys of database 0 make up the same elements as its own. -/
theorem keysAnswered_of_same {start s : Server} {c : Client} {ans : Answers} {db walked : Lexidb} (fresh : start.FreshDicts)
    (run : Run (Serves env) start clients s) (known : c.Authenticated)
    (parsed : parse env ans.supply words (c.readBuf.take c.readPos) = .ok .keys)
    (found : s.db[c.databaseNum]? = some db) (first : s.db[0]? = some walked) (bound : db.dict.numEntries < sizeMod)
    (grants : ans.reply.Grants) (valid : c.builder.Valid) (room : Fits c.builder (elems.flatten.length + 32))
    (same : db.dict.items = [] ∨ SameElements env ans.reply walked.dict db.dict elems) :
    KeysAnswered env ans s c := by
  have placed := dictsPlaced_of_run fresh run
  have counted := (placed db (List.mem_of_getElem? found)).toCounted
  have dispatched : ∀ fuel, words ≤ fuel → executeCmd env ans fuel s c = executeKeys env ans fuel s c := by
    intro fuel enough
    have word := (parse_mono _).ok_le parsed enough
    rw [executeCmd_authenticated known (by simp [Cmd.type]) word]
    rfl
  by_cases empty : db.dict.items = []
  · have none : db.dict.numEntries = 0 := by rw [counted.count, empty]; rfl
    refine ⟨words, s.counted, c.addNone ans.reply, db, ?_, found, ?_, fun filled => absurd empty filled⟩
    · rw [dispatched words (Nat.le_refl _)]
      simp [executeKeys, onDb_found found, none]
    · exact fun _ => addNone_appends grants valid (room.le (by omega))
  · have some_ : db.dict.numEntries ≠ 0 := by
      rw [counted.count]
      exact fun zero => empty (List.length_eq_zero_iff.mp zero)
    rcases same with missing | ⟨rendered, order, perm, listed⟩
    · exact absurd missing empty
    have length : elems.length = db.dict.numEntries := by
      rw [← listed.length_eq, perm.length_eq, List.length_map, counted.count]
    obtain ⟨enough, loops⟩ := builderAddKeys_spec walked.dict _ _ rendered
    have digits := decimal_length_le bound
    obtain ⟨middle, headed, head⟩ := builderAddArray_spec grants valid bound (room.le (by omega))
    have headLength : (arrayTypeByte :: decimal db.dict.numEntries ++ crlf).length ≤ 32 := by
      simp only [crlf, List.length_append, List.length_cons, List.length_nil]
      omega
    obtain ⟨after, looped, body⟩ := loops (enough + words) (by omega) (htIterNew walked.dict) middle
      (htIterNew_at (placed walked (List.mem_of_getElem? first)).toCounted) head.valid
      (by have := head.length; unfold Fits at room ⊢; omega)
    refine ⟨enough + words, s.counted, { c with builder := after }, db, ?_, found, fun missing => absurd missing empty, ?_⟩
    · rw [dispatched (enough + words) (by omega)]
      simp [executeKeys, onDb_found found, some_, onDb_found first, headed, looped]
    · intro _
      refine ⟨order, elems, perm, listed, ?_⟩
      rw [length]
      exact head.trans body

end Law

section Runs

private def setOne : List UInt8 := cstr "*3\r\n$3\r\nSET\r\n:1\r\n:2\r\n"

private def keys : List UInt8 := cstr "+KEYS\r\n"

private theorem renders_int (mem : Mem) (env : Env) (grants : mem.Grants) (num : Int64) :
    Renders mem env (.int num) (intTypeByte :: signedDecimal num.toInt ++ crlf) := by
  obtain ⟨bytes, encodes, renders⟩ := Object.Sendable.sends env (.int : Object.Sendable (.int num)) .int grants
  cases encodes
  exact renders

/-- An Int is never sent as nothing. -/
private theorem int_not_empty (claimed : Renders (.granted 1) .sample (.int 1) []) : False := by
  obtain ⟨one, empty⟩ := claimed
  obtain ⟨two, printed⟩ := renders_int (.granted 1) .sample (Mem.granted_grants 1) 1
  obtain ⟨after, added, nothing⟩ := empty (one + two) (by omega) builderNew vstrNew_valid (by
    simp [Fits, builderNew])
  obtain ⟨other, same, number⟩ := printed (one + two) (by omega) builderNew vstrNew_valid (by
    simp only [Fits, builderNew, vstrNew_bytes, vstrMaxLargeSize]
    decide)
  rw [added] at same
  cases same
  exact absurd (nothing.text_eq number) (by decide)

theorem keysAnswered_of_same_one :
    KeysAnswered .sample (.granted (fun _ _ => 1) 0) (sent oneDatabase 1 setOne).after (sender keys) := by
  have renders := renders_int (.granted 1) .sample (Mem.granted_grants 1) 1
  have fresh : oneDatabase.FreshDicts := by
    intro db member
    obtain ⟨⟩ | ⟨_, ⟨⟩⟩ := member
    exact ⟨[], 0, rfl⟩
  have run : Run (Serves .sample) oneDatabase ([] ++ [sender setOne]) (sent oneDatabase 1 setOne).after :=
    .next .start ⟨.granted (fun _ _ => 1) 0, 64, _, rfl⟩
  have word : parse .sample (.granted fun _ _ => 1) 64 ((sender keys).readBuf.take (sender keys).readPos) = .ok .keys := rfl
  have room : Fits (sender keys).builder ([cstr ":1\r\n"].flatten.length + 32) := by
    simp only [sender, builderNew, Fits, vstrNew_bytes, vstrMaxLargeSize]
    decide
  exact keysAnswered_of_same fresh run (by decide) word rfl rfl (by decide) (Mem.granted_grants 1) vstrNew_valid room
    (.inr ⟨.cons renders .nil, [.int 1], .refl _, .cons renders .nil⟩)

/-- Two empty databases. -/
private def twoDatabases : Server :=
  { oneDatabase with numDatabases := 2, db := oneDatabase.db ++ oneDatabase.db }

/-- The same client on the second database. -/
private def onSecond (input : List UInt8) : Client := { sender input with databaseNum := 1 }

/-- The server after the second database got its first key. -/
private def filled : Server :=
  ((executeCmd .sample (.granted (fun _ _ => 1) 0) 64 twoDatabases (onSecond setOne)).toOption.map Prod.fst).getD twoDatabases

/-- The header counts the key of the second database, the element is looked for
in the first. -/
theorem keysAnswered_counterexample :
    Run (Serves .sample) twoDatabases [onSecond setOne] filled ∧ (onSecond keys).Authenticated ∧
      parse .sample (.granted fun _ _ => 1) 64 ((onSecond keys).readBuf.take (onSecond keys).readPos) = .ok .keys ∧
      ¬ KeysAnswered .sample (.granted (fun _ _ => 1) 0) filled (onSecond keys) := by
  have word : parse .sample (.granted fun _ _ => 1) 64 ((onSecond keys).readBuf.take (onSecond keys).readPos) =
      .ok .keys := rfl
  refine ⟨.next .start ⟨.granted (fun _ _ => 1) 0, 64, _, rfl⟩, by decide, word, ?_⟩
  rintro ⟨fuel, t, reply, db, done, found, _, listed⟩
  -- whatever the fuel, the reply is the bare header
  have replied : reply.builder.bytes = cstr "*1\r\n" := by
    rcases (parse_mono _).spent_or word fuel with spent | same
    · have stuck : executeCmd .sample (.granted (fun _ _ => 1) 0) fuel filled (onSecond keys) = .error .fuel := by
        unfold executeCmd
        exact (congrArg (· >>= _) spent).trans rfl
      rw [stuck] at done
      cases done
    · rw [executeCmd_authenticated (by decide) (by simp [Cmd.type]) same] at done
      cases fuel with
      | zero => cases done
      | succ fuel =>
        have ran : ∃ t, dispatch .sample (.granted (fun _ _ => 1) 0) (fuel + 1) filled (onSecond keys) .keys =
            .ok (t, { onSecond keys with builder := ⟨.sm (cstr "*1\r\n" ++ List.replicate 19 0), 19⟩ }) := ⟨_, rfl⟩
        obtain ⟨u, ran⟩ := ran
        rw [ran] at done
        cases done
        rfl
  cases found
  obtain ⟨order, elems, perm, rendered, appended⟩ := listed (by
    intro empty
    exact absurd (congrArg List.length empty) (by decide))
  have only : order = [.int 1] := List.perm_singleton.mp perm
  subst only
  obtain ⟨bytes, rest, first, none, rfl⟩ := List.forall₂_cons_left_iff.mp rendered
  cases none
  have content := appended.bytes
  rw [replied] at content
  have nothing : bytes = [] := by
    have lengths := congrArg List.length content
    have start : (onSecond keys).builder.bytes = [] := vstrNew_bytes
    have header : (arrayTypeByte :: decimal 1 ++ crlf).length = (cstr "*1\r\n").length := by decide
    simp only [start, List.length_append, List.length_singleton, List.flatten_singleton, List.length_nil] at lengths header
    exact List.length_eq_zero_iff.mp (by omega)
  subst nothing
  exact int_not_empty first

end Runs

end LexiDB
