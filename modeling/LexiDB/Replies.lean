import LexiDB.Keys
import LexiDB.Reading
import LexiDB.Shelves

/-! What the server may answer: every text that `execute_cmd` can append. -/

namespace LexiDB

open Lib

/-- The lines of success. -/
def serverLines : List (List UInt8) := [cstr "OK", cstr "PONG", cstr "NONE"]

/-- The texts given to `builder_add_err`. -/
def serverErrors : List (List UInt8) :=
  [errUnauthed, errInvalidCommand, errInvalidKey, errOom, errDbrange, cstr "failed to authenticate", cstr "unable to push",
    cstr "failed to enque data"]

theorem serverLines_inLine (listed : line ∈ serverLines) : ∀ byte ∈ line, lineByte byte = true := by
  have all : ∀ line ∈ serverLines, line.all lineByte = true := by decide
  exact List.all_eq_true.mp (all _ listed)

theorem serverErrors_inLine (listed : err ∈ serverErrors) : ∀ byte ∈ err, lineByte byte = true := by
  have all : ∀ err ∈ serverErrors, err.all lineByte = true := by decide
  exact List.all_eq_true.mp (all _ listed)

theorem serverErrors_short (listed : err ∈ serverErrors) : err.length ≤ 29 := by
  have all : ∀ err ∈ serverErrors, err.length ≤ 29 := by decide
  exact all _ listed

/-- An object that GET, KEYS, POP or DEQUE can find there. -/
def Lexidb.Stores (db : Lexidb) (obj : Object) : Prop :=
  (∃ entry ∈ db.dict.items, obj = entry.key ∨ obj = entry.value) ∨ obj ∈ db.vec.elems ∨
    ∃ cells, db.queue.Holds cells ∧ obj ∈ cells.map Prod.snd

/-- What is stored is made of Null, Int, Bool, String and arrays of some elements,
and there are not more keys than a `size_t` counts. -/
structure Lexidb.Sendable (db : Lexidb) : Prop where
  stored : ∀ obj, db.Stores obj → obj.Sendable ∧ obj.Built
  count : db.dict.numEntries < sizeMod

def InfoValue.wire : InfoValue → List UInt8
  | .int val => intTypeByte :: signedDecimal val.toInt ++ crlf
  | .string str => bulkString str

def infoWire (entries : List (List UInt8 × InfoValue)) : List UInt8 :=
  entries.flatMap fun entry => bulkString entry.1 ++ entry.2.wire

/-- The reply to INFO. -/
def Server.infoText (s : Server) (now : Nat) : List UInt8 := htTypeByte :: decimal 11 ++ crlf ++ infoWire (s.info now)

/-- The reply to KEYS over this dictionary: its keys behind a header that counts
another. -/
def keysText (count : Nat) (texts : List (List UInt8)) : List UInt8 := arrayTypeByte :: decimal count ++ crlf ++ texts.flatten

/-- All replies but the one to KEYS. -/
inductive Server.MayAnswer (s : Server) (now : Nat) : List UInt8 → Prop where
  | line (listed : line ∈ serverLines) : s.MayAnswer now (ascii '+' :: line ++ crlf)
  | error (listed : err ∈ serverErrors) : s.MayAnswer now (simpleErrTypeByte :: err ++ crlf)
  | one : s.MayAnswer now (Value.int 1).wire
  | stored {d : Nat} {db : Lexidb} (found : s.db[d]? = some db) (holds : db.Stores obj) (encodes : Encodes obj text) : s.MayAnswer now text
  | info : s.MayAnswer now (s.infoText now)

/-- The builder of the client can take any of these. -/
structure Client.Room (c : Client) (s : Server) (now : Nat) : Prop where
  answer : ∀ text : List UInt8, s.MayAnswer now text → Fits c.builder text.length
  keys : ∀ (db walked : Lexidb) texts, s.db[c.databaseNum]? = some db → s.db[0]? = some walked →
    List.Forall₂ Encodes (walked.dict.items.map HtEntry.key) texts → Fits c.builder (keysText db.dict.numEntries texts).length

section Fuel

variable {env : Env} {ans : Answers} {s : Server} {c : Client}

theorem builderAddKeys_mono {mem : Mem} (ht : Ht Object Object) (iter : HtIter Object Object) (b : Builder) :
    FuelMono fun fuel => builderAddKeys env mem ht fuel iter b := by
  intro fuel
  induction fuel generalizing iter b with
  | zero =>
    intro settled
    exact absurd rfl settled
  | succ fuel ih =>
    simp only [builderAddKeys]
    split
    · exact .refl _
    · exact (builderAddObject_mono b _ fuel).bind fun added => ih _ _

theorem replyObject_mono (obj : Option Object) : FuelMono fun fuel => replyObject env ans fuel s c obj := by
  cases obj with
  | none => exact .const _
  | some obj => exact (builderAddObject_mono _ _).bind fun _ => .const _

/-- More fuel shows the same outcome of a command, if any was shown. -/
theorem dispatch_mono (cmd : Cmd) : FuelMono fun fuel => dispatch env ans fuel s c cmd := by
  cases cmd with
  | keys =>
    refine FuelMono.bind (.const _) fun counted => ?_
    simp only
    split
    · exact .const _
    · refine FuelMono.bind (.const _) fun walked => FuelMono.bind (.const _) fun headed => ?_
      exact (builderAddKeys_mono _ _ _).bind fun _ => .const _
  | get | pop | deque => exact FuelMono.bind (.const _) fun _ => replyObject_mono _
  | _ => exact .const _

theorem executeCmd_mono : FuelMono fun fuel => executeCmd env ans fuel s c := by
  refine (parse_mono _).bind fun cmd => ?_
  split
  · exact .const _
  · split
    · exact .const _
    · exact dispatch_mono cmd

end Fuel

section Stored

variable {env : Env} {db : Lexidb}

/-- What `ht_get` finds is stored. -/
theorem htGet_stored (found : htGet (objectOps env) db.dict key = some obj) : db.Stores obj := by
  obtain ⟨entry, here, rfl⟩ := Option.map_eq_some_iff.mp found
  have member := List.mem_of_find?_eq_some here
  refine .inl ⟨entry, ?_, .inr rfl⟩
  rw [chainAt, List.getD_eq_getElem?_getD] at member
  cases chain : db.dict.entries[htHash (objectOps env) db.dict key]? with
  | none => simp [chain] at member
  | some entries =>
    rw [chain] at member
    exact List.mem_flatten.mpr ⟨entries, List.mem_of_getElem? chain, member⟩

theorem vecPop_stored (valid : db.vec.Valid) (popped : (vecPop db.vec).1 = some obj) : db.Stores obj := by
  obtain ⟨top, _, _⟩ := vecPop_spec valid
  rw [popped] at top
  exact .inr (.inl (List.mem_of_getLast? top.symm))

theorem queueDeque_stored (holds : db.queue.Holds cells) (dequed : (queueDeque db.queue).1 = some obj) : db.Stores obj := by
  cases cells with
  | nil =>
    rw [queueDeque_empty holds] at dequed
    cases dequed
  | cons cell cells =>
    obtain ⟨after, taken, _⟩ := queueDeque_spec holds
    rw [taken] at dequed
    cases dequed
    exact .inr (.inr ⟨cell :: cells, holds, by simp⟩)

end Stored

section Info

variable {mem : Mem}

theorem builderAddInfo_spec (grants : mem.Grants) (entries : List (List UInt8 × InfoValue)) :
    ∀ b : Builder, b.Valid → Fits b (infoWire entries).length →
      ∃ after, builderAddInfo mem entries b = .ok after ∧ Appended b (infoWire entries) after := by
  induction entries with
  | nil => exact fun b valid _ => ⟨b, rfl, .refl valid⟩
  | cons entry entries ih =>
    intro b valid fits
    obtain ⟨name, value⟩ := entry
    have split : infoWire ((name, value) :: entries) = bulkString name ++ (value.wire ++ infoWire entries) := by
      simp [infoWire]
    rw [split] at fits ⊢
    simp only [List.length_append] at fits
    obtain ⟨one, named, first⟩ := builderAddString_spec grants valid name (fits.le (by omega))
    have room := fits.next first rfl
    obtain ⟨two, added, second⟩ : ∃ two, (match value with
        | .int val => builderAddInt mem one val
        | .string str => builderAddString mem one str) = .ok (0, two) ∧ Appended one value.wire two := by
      cases value with
      | int val => exact builderAddInt_spec grants first.valid val (room.le (by simp [InfoValue.wire, crlf]))
      | string str => exact builderAddString_spec grants first.valid str (room.le (by simp [InfoValue.wire]))
    obtain ⟨after, more, rest⟩ := ih two second.valid (room.next second rfl)
    refine ⟨after, ?_, first.trans (second.trans rest)⟩
    cases value <;>
    · simp only at added
      simp only [builderAddInfo, named, ok_bind, added, more]

/-- A reply to INFO is never short. -/
theorem Server.infoText_length (s : Server) (now : Nat) : 32 ≤ (s.infoText now).length := by
  have names : ∀ entries : List (List UInt8 × InfoValue), (entries.map fun entry => entry.1.length).sum ≤ (infoWire entries).length := by
    intro entries
    induction entries with
    | nil => simp [infoWire]
    | cons entry entries ih =>
      simp only [infoWire, List.flatMap_cons, List.length_append, List.map_cons, List.sum_cons, bulkString, List.length_cons] at ih ⊢
      omega
  have all := names (s.info now)
  have known : ((s.info now).map fun entry => entry.1.length).sum = 109 := rfl
  simp only [Server.infoText, List.length_append]
  omega

end Info

/-- The builder got one of these texts. -/
def Answered (s : Server) (now : Nat) (b after : Builder) : Prop := ∃ text, Appended b text after ∧ s.MayAnswer now text

theorem executeAuthCommand_builder (env : Env) (mem : Mem) (s : Server) (c : Client) (username password : Object) :
    (executeAuthCommand env mem s c username password).2.builder = c.builder := by
  unfold executeAuthCommand
  split
  · split
    · rfl
    · simp only
      split <;> rfl
  · rfl

theorem Client.Room.short {s : Server} {c : Client} (room : c.Room s now) : Fits c.builder 32 :=
  (room.answer _ .info).le (s.infoText_length now)

/-- One bound for all replies. -/
theorem Client.room_of_bound {s : Server} {c : Client} (fits : Fits c.builder limit) (lines : 32 ≤ limit)
    (info : (s.infoText now).length ≤ limit)
    (stored : ∀ (db : Lexidb) obj text, db ∈ s.db → db.Stores obj → Encodes obj text → text.length ≤ limit)
    (keys : ∀ (db walked : Lexidb) texts, db ∈ s.db → walked ∈ s.db →
      List.Forall₂ Encodes (walked.dict.items.map HtEntry.key) texts → (keysText db.dict.numEntries texts).length ≤ limit) :
    c.Room s now := by
  refine ⟨?_, fun db walked texts found first encodes =>
    fits.le (keys db walked texts (List.mem_of_getElem? found) (List.mem_of_getElem? first) encodes)⟩
  intro text may
  refine fits.le ?_
  cases may with
  | line listed =>
    have short : ∀ line ∈ serverLines, (ascii '+' :: line ++ crlf).length ≤ 32 := by decide
    exact Nat.le_trans (short _ listed) lines
  | error listed =>
    have short := serverErrors_short listed
    simp only [List.length_append, List.length_cons, crlf, List.length_nil]
    omega
  | one => exact Nat.le_trans (by decide) lines
  | stored found holds encodes => exact stored _ _ _ (List.mem_of_getElem? found) holds encodes
  | info => exact info

section Answering

variable {env : Env} {ans : Answers} {s : Server} {c : Client} {db : Lexidb}
  (grants : ans.Grants) (valid : c.builder.Valid) (room : c.Room s ans.now)
include grants valid room

theorem addOk_answered : Answered s ans.now c.builder (c.addOk ans.reply).builder :=
  ⟨_, addOk_appends grants.reply valid room.short, .line (show cstr "OK" ∈ serverLines by decide)⟩

theorem addNone_answered : Answered s ans.now c.builder (c.addNone ans.reply).builder :=
  ⟨_, addNone_appends grants.reply valid room.short, .line (show cstr "NONE" ∈ serverLines by decide)⟩

theorem addErr_answered (listed : err ∈ serverErrors) : Answered s ans.now c.builder (c.addErr ans.reply err).builder :=
  ⟨_, addErr_appends grants.reply valid room.short (serverErrors_short listed), .error listed⟩

theorem replyOk_answered (t : Server) (accepted : Bool) (listed : err ∈ serverErrors) :
    Answered s ans.now c.builder (replyOk ans t c accepted err).2.builder := by
  unfold replyOk
  split
  · exact addOk_answered grants valid room
  · exact addErr_answered grants valid room listed

/-- What GET, POP and DEQUE answer, given that they only find what is stored. -/
theorem replyObject_answered (env : Env) (t : Server) {d : Nat} (found : s.db[d]? = some db) (sendable : db.Sendable) {obj : Option Object}
    (stored : ∀ value, obj = some value → db.Stores value) :
    ∃ fuel u e, replyObject env ans fuel t c obj = .ok (u, e) ∧ Answered s ans.now c.builder e.builder := by
  cases obj with
  | none => exact ⟨0, t, _, rfl, addNone_answered grants valid room⟩
  | some obj =>
    have here := stored obj rfl
    obtain ⟨sends, built⟩ := sendable.stored obj here
    obtain ⟨text, encodes, enough, renders⟩ := sends.sends env built grants.reply
    obtain ⟨after, added, appended⟩ := renders enough (Nat.le_refl _) c.builder valid (room.answer text (.stored found here encodes))
    exact ⟨enough, t.counted, { c with builder := after }, by simp [replyObject, added, Client.appended], text, appended,
      .stored found here encodes⟩

/-- Every command but OK and KEYS is answered with one of the texts. -/
theorem dispatch_answered (env : Env) (found : s.db[c.databaseNum]? = some db) (holds : db.Holds stack queue) (sendable : db.Sendable)
    (spoken : cmd ≠ .okc) (other : cmd ≠ .keys) :
    ∃ fuel t d, dispatch env ans fuel s c cmd = .ok (t, d) ∧ Answered s ans.now c.builder d.builder := by
  cases cmd with
  | okc => exact absurd rfl spoken
  | keys => exact absurd rfl other
  | illegal | help => exact ⟨0, _, _, rfl, addErr_answered grants valid room (by decide)⟩
  | ping =>
    obtain ⟨after, added, appended⟩ := pushString_appends grants.reply valid (cstr "+PONG\r\n") (room.short.le (by decide))
    refine ⟨0, _, _, rfl, _, ?_, .line (show cstr "PONG" ∈ serverLines by decide)⟩
    simp only [Client.appended, builderAddPong, added]
    exact appended
  | auth username password =>
    have kept := executeAuthCommand_builder env ans.hash s c username password
    simp only [dispatch]
    generalize executeAuthCommand env ans.hash s c username password = result at kept
    obtain ⟨res, after⟩ := result
    refine ⟨0, _, _, rfl, ?_⟩
    simp only at kept ⊢
    split
    · simpa [Client.addErr, Client.appended, kept] using
        addErr_answered grants valid room (show cstr "failed to authenticate" ∈ serverErrors by decide)
    · simpa [Client.addOk, Client.appended, kept] using addOk_answered grants valid room
  | infoc =>
    have whole := room.answer _ .info
    have split : (s.infoText ans.now).length = (htTypeByte :: decimal 11 ++ crlf).length + (infoWire (s.info ans.now)).length := by
      simp only [Server.infoText, List.length_append]
    rw [split] at whole
    obtain ⟨middle, headed, first⟩ := builderAddHt_spec grants.reply valid (show 11 < sizeMod by decide)
      (whole.le (by simp [crlf]))
    obtain ⟨after, added, rest⟩ := builderAddInfo_spec grants.reply (s.info ans.now) middle first.valid (whole.next first rfl)
    refine ⟨0, s.counted, { c with builder := after }, ?_, _, first.trans rest, .info⟩
    simp only [dispatch, headed, ok_bind, added, pure_eq_ok]
  | select value =>
    simp only [dispatch]
    split
    · exact ⟨0, _, _, rfl, addErr_answered grants valid room (by decide)⟩
    · exact ⟨0, _, _, rfl, addOk_answered grants valid room⟩
  | set | del | push | enque | zset | zdel =>
    simp only [dispatch, executeSetCommand, executeDelCommand, executePushCommand, executeEnqueCommand, executeZsetCommand,
      executeZdelCommand, onDb_found found, ok_bind]
    exact ⟨0, _, _, rfl, replyOk_answered grants valid room _ _ (by decide)⟩
  | get key =>
    simp only [dispatch, executeGetCommand, onDb_found found, ok_bind]
    exact replyObject_answered grants valid room env _ found sendable fun _ => htGet_stored
  | pop =>
    simp only [dispatch, executePopCommand, onDb_found found, ok_bind]
    exact replyObject_answered grants valid room env _ found sendable fun _ => vecPop_stored holds.valid
  | deque =>
    obtain ⟨cells, queue, _⟩ := holds.queue
    simp only [dispatch, executeDequeCommand, onDb_found found, ok_bind]
    exact replyObject_answered grants valid room env _ found sendable fun _ => queueDeque_stored queue
  | zhas value =>
    simp only [dispatch, executeZhasCommand, onDb_found found, ok_bind]
    split
    · obtain ⟨after, added, appended⟩ := builderAddInt_spec grants.reply valid 1 (room.short.le (by decide))
      simp only [added, ok_bind, pure_eq_ok]
      exact ⟨0, _, _, rfl, _, appended, .one⟩
    · exact ⟨0, _, _, rfl, addNone_answered grants valid room⟩

/-- KEYS is answered with the keys of database 0 behind the count of the selected
one. -/
theorem executeKeys_answered (found : s.db[c.databaseNum]? = some db) (first : s.db[0]? = some walked)
    (counted : walked.dict.Counted) (selected : db.Sendable) (sendable : walked.Sendable) (filled : db.dict.numEntries ≠ 0) :
    ∃ fuel t d texts, executeKeys env ans fuel s c = .ok (t, d) ∧
      List.Forall₂ Encodes (walked.dict.items.map HtEntry.key) texts ∧
      Appended c.builder (keysText db.dict.numEntries texts) d.builder := by
  have each : ∀ entry ∈ walked.dict.items, ∃ text, Sends ans.reply env entry.key text := by
    intro entry member
    obtain ⟨sends, built⟩ := sendable.stored entry.key (.inl ⟨entry, member, .inl rfl⟩)
    exact sends.sends env built grants.reply
  obtain ⟨texts, sends⟩ : ∃ texts, List.Forall₂ (fun entry text => Sends ans.reply env entry.key text) walked.dict.items texts := by
    generalize walked.dict.items = items at each
    induction items with
    | nil => exact ⟨[], .nil⟩
    | cons entry items ih =>
      obtain ⟨text, head⟩ := each entry (by simp)
      obtain ⟨texts, rest⟩ := ih fun entry member => each entry (by simp [member])
      exact ⟨text :: texts, .cons head rest⟩
  have encodes : List.Forall₂ Encodes (walked.dict.items.map HtEntry.key) texts := by
    rw [List.forall₂_map_left_iff]
    exact sends.imp fun _ _ sent => sent.1
  have whole := room.keys db walked texts found first encodes
  simp only [keysText, List.length_append] at whole
  obtain ⟨middle, headed, head⟩ := builderAddArray_spec grants.reply valid selected.count (whole.le (by simp [crlf]))
  obtain ⟨enough, loops⟩ := builderAddKeys_spec walked.dict _ _ (sends.imp fun _ _ sent => sent.2)
  obtain ⟨after, looped, body⟩ := loops enough (Nat.le_refl _) (htIterNew walked.dict) middle (htIterNew_at counted) head.valid
    (whole.next head (by simp [crlf]))
  refine ⟨enough, s.counted, { c with builder := after }, texts, ?_, encodes, head.trans body⟩
  simp [executeKeys, onDb_found found, filled, onDb_found first, headed, looped]

end Answering

/-- What a command of a client is answered with. -/
inductive Server.Replies (s : Server) (c : Client) (now : Nat) (cmd : Cmd) : List UInt8 → Prop where
  | silent (known : c.Authenticated) (same : cmd = .okc) : s.Replies c now cmd []
  | keys {db walked : Lexidb} (known : c.Authenticated) (same : cmd = .keys) (found : s.db[c.databaseNum]? = some db)
      (filled : db.dict.numEntries ≠ 0) (first : s.db[0]? = some walked)
      (encodes : List.Forall₂ Encodes (walked.dict.items.map HtEntry.key) texts) : s.Replies c now cmd (keysText db.dict.numEntries texts)
  | other (spoken : c.Authenticated → cmd ≠ .okc ∧
      (cmd = .keys → ∀ db : Lexidb, s.db[c.databaseNum]? = some db → db.dict.numEntries = 0))
      (may : s.MayAnswer now text) : s.Replies c now cmd text

section Requests

variable {env : Env} {ans : Answers} {s : Server} {c : Client}

/-- The commands that get through to the `switch`. -/
theorem executeCmd_dispatched (legal : cmd.type ≠ .illegal) (allowed : c.Authenticated ∨ cmd.type = .auth)
    (parsed : parse env ans.supply words (c.readBuf.take c.readPos) = .ok cmd)
    (done : dispatch env ans fuel s c cmd = .ok (t, d)) : executeCmd env ans (words + fuel) s c = .ok (t, d) := by
  have word := (parse_mono _).ok_le parsed (Nat.le_add_right words fuel)
  have reached : ¬ (¬ c.Authenticated ∧ cmd.type ≠ .auth) := by tauto
  simp only [executeCmd, word, ok_bind, if_neg legal, if_neg reached]
  exact (dispatch_mono cmd).ok_le done (Nat.le_add_left fuel words)

/-- In every run each request is answered so. -/
theorem replies_of_run {start h : Hub} (fresh : start.Fresh) (run : Run (Hub.Serves env) start history h)
    (asks : h.Asks env who r) (stored : ∀ db ∈ h.server.db, db.Sendable) (valid : r.client.builder.Valid)
    (room : r.client.Room h.server r.ans.now) :
    ∃ fuel t d text, executeCmd env r.ans fuel h.server r.client = .ok (t, d) ∧ Appended r.client.builder text d.builder ∧
      h.server.Replies r.client r.ans.now r.cmd text := by
  have inRange := inRange_of_run fresh run
  obtain ⟨db, found⟩ := inRange.found who
  have holds := holds_of_run fresh run _ db found
  rw [← asks.selected] at found
  have sendable := stored db (List.mem_of_getElem? found)
  have parsed := asks.parsed
  by_cases illegal : r.cmd.type = .illegal
  · obtain ⟨text, appended, may⟩ := addErr_answered asks.grants valid room (show errInvalidCommand ∈ serverErrors by decide)
    refine ⟨r.fuel, h.server, _, text, by simp [executeCmd, parsed, illegal], appended, .other (fun _ => ⟨?_, ?_⟩) may⟩ <;>
    · intro same
      rw [same] at illegal
      cases illegal
  · by_cases known : r.client.Authenticated ∨ r.cmd.type = .auth
    · by_cases silent : r.cmd = .okc
      · rw [silent] at known parsed
        have done := executeCmd_dispatched (by simp [Cmd.type]) known parsed
          (show dispatch env r.ans 0 h.server r.client .okc = .ok (h.server, r.client) from rfl)
        exact ⟨_, _, _, [], done, .refl valid, .silent (known.resolve_right (by simp [Cmd.type])) silent⟩
      · by_cases keys : r.cmd = .keys
        · rw [keys] at known parsed
          by_cases empty : db.dict.numEntries = 0
          · have answered : dispatch env r.ans 0 h.server r.client .keys = .ok (h.server.counted, r.client.addNone r.ans.reply) := by
              simp [dispatch, executeKeys, onDb_found found, empty]
            obtain ⟨text, appended, may⟩ := addNone_answered asks.grants valid room
            refine ⟨_, _, _, text, executeCmd_dispatched (by simp [Cmd.type]) known parsed answered, appended,
              .other (fun _ => ⟨silent, fun _ other here => ?_⟩) may⟩
            rw [found] at here
            cases here
            exact empty
          · obtain ⟨walked, first⟩ : ∃ walked, h.server.db[0]? = some walked := by
              have positive := inRange.positive
              rw [← inRange.size] at positive
              exact ⟨_, List.getElem?_eq_getElem positive⟩
            have placed := dictsPlaced_of_hub fresh run walked (List.mem_of_getElem? first)
            obtain ⟨fuel, t, d, texts, listed, encodes, appended⟩ := executeKeys_answered asks.grants valid room found first
              placed.toCounted sendable (stored walked (List.mem_of_getElem? first)) empty
            exact ⟨_, t, d, _, executeCmd_dispatched (by simp [Cmd.type]) known parsed listed, appended,
              .keys (known.resolve_right (by simp [Cmd.type])) keys found empty first encodes⟩
        · obtain ⟨fuel, t, d, done, text, appended, may⟩ := dispatch_answered asks.grants valid room env found holds sendable silent keys
          exact ⟨_, t, d, text, executeCmd_dispatched illegal known parsed done, appended,
            .other (fun _ => ⟨silent, fun same => absurd same keys⟩) may⟩
    · obtain ⟨text, appended, may⟩ := addErr_answered asks.grants valid room (show errUnauthed ∈ serverErrors by decide)
      rw [not_or] at known
      exact ⟨r.fuel, h.server, _, text, by simp [executeCmd, parsed, illegal, known.1, known.2], appended,
        .other (fun claimed => absurd claimed known.1) may⟩

end Requests

end LexiDB
