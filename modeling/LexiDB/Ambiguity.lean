import LexiDB.Replies

/-! Which replies a client can tell apart once they are decoded. -/

namespace LexiDB

open Lib

/-- A request of a reachable state that was answered with this text. -/
structure Hub.Replied (env : Env) (h : Hub) (who : Nat) (r : Request) (text : List UInt8) : Prop where
  reached : ∃ start history, start.Fresh ∧ Run (Hub.Serves env) start history h
  asks : h.Asks env who r
  returns : r.Returns env
  stored : ∀ db ∈ h.server.db, db.Sendable
  valid : r.client.builder.Valid
  room : r.client.Room h.server r.ans.now
  appended : Appended r.client.builder text r.reply.builder

/-- It was a GET of an authenticated client, and this is what the key is bound to. -/
def Hub.Looks (env : Env) (h : Hub) (r : Request) (result : Option Object) : Prop :=
  ∃ key db, r.client.Authenticated ∧ r.cmd = .get key ∧ h.server.db[r.client.databaseNum]? = some db ∧
    htGet (objectOps env) db.dict key = result

/-- Both objects hold the same tree. -/
def Object.Same (obj other : Object) : Prop := ∃ v : Value, v.Is obj ∧ v.Is other

section Texts

variable {env : Env} {h : Hub} {r : Request} {text : List UInt8}

/-- The text does not depend on how long `execute_cmd` was watched. -/
theorem Hub.Replied.text_eq (replied : h.Replied env who r text)
    (done : executeCmd env r.ans fuel h.server r.client = .ok (t, d)) (appended : Appended r.client.builder other d.builder) :
    text = other := by
  have returned := replied.returns
  unfold Request.Returns at returned
  rw [replied.asks.before] at returned
  have same : executeCmd env r.ans r.fuel h.server r.client = executeCmd env r.ans fuel h.server r.client :=
    executeCmd_mono.agree (by rw [returned]; exact settled_ok _) (by rw [done]; exact settled_ok _)
  rw [returned, done] at same
  cases same
  exact replied.appended.text_eq appended

/-- A GET is answered with what it found. -/
theorem Hub.Looks.text_eq {result : Option Object} (looks : h.Looks env r result) (replied : h.Replied env who r text) {d : Client}
    (done : ∀ s : Server, ∃ t, replyObject env r.ans fuel s r.client result = .ok (t, d))
    (appended : Appended r.client.builder other d.builder) : text = other := by
  obtain ⟨key, db, known, get, found, bound⟩ := looks
  have parsed := replied.asks.parsed
  rw [get] at parsed
  obtain ⟨t, answered⟩ := done { h.server with db := h.server.db.set r.client.databaseNum db }
  have dispatched : dispatch env r.ans fuel h.server r.client (.get key) = .ok (t, d) := by
    simpa [dispatch, executeGetCommand, onDb_found found, bound] using answered
  exact replied.text_eq (executeCmd_dispatched (by simp [Cmd.type]) (.inl known) parsed dispatched) appended

theorem Hub.Looks.miss (looks : h.Looks env r none) (replied : h.Replied env who r text) :
    text = ascii '+' :: cstr "NONE" ++ crlf := by
  have none_ : ∀ s : Server, ∃ t, replyObject env r.ans 0 s r.client none = .ok (t, r.client.addNone r.ans.reply) :=
    fun s => ⟨s, rfl⟩
  exact looks.text_eq replied none_ (addNone_appends replied.asks.grants.reply replied.valid replied.room.short)

theorem Hub.Looks.hit {obj : Object} (looks : h.Looks env r (some obj)) (replied : h.Replied env who r text) {v : Value}
    (is : v.Is obj) : text = v.wire := by
  have finds := looks
  obtain ⟨key, db, _, _, found, bound⟩ := finds
  have here := htGet_stored bound
  obtain ⟨sendable, built⟩ := (replied.stored db (List.mem_of_getElem? found)).stored obj here
  obtain ⟨sent, encodes, enough, renders⟩ := sendable.sends env built replied.asks.grants.reply
  obtain ⟨after, added, appended⟩ := renders enough (Nat.le_refl _) r.client.builder replied.valid
    (replied.room.answer sent (.stored found here encodes))
  have some_ : ∀ s : Server, ∃ t, replyObject env r.ans enough s r.client (some obj) = .ok (t, { r.client with builder := after }) :=
    fun s => ⟨s.counted, by simp [replyObject, added, Client.appended]⟩
  rw [looks.text_eq replied some_ appended]
  exact sendable.encodes_unique _ _ encodes is.encodes

private theorem Encodes.not_error (encodes : Encodes obj text) : text.head? ≠ some simpleErrTypeByte := by
  cases encodes <;> simp [bulkString, cstr] <;> decide

/-- A reply that starts as an error is one of the eight. -/
theorem Hub.Replied.error (replied : h.Replied env who r text) (starts : text.head? = some simpleErrTypeByte) :
    ∃ err ∈ serverErrors, text = simpleErrTypeByte :: err ++ crlf := by
  obtain ⟨start, history, fresh, run⟩ := replied.reached
  obtain ⟨fuel, t, d, sent, done, appended, answer⟩ := replies_of_run fresh run replied.asks replied.stored replied.valid replied.room
  rw [replied.text_eq done appended] at starts ⊢
  cases answer with
  | silent => cases starts
  | keys => exact absurd starts (by simp [keysText]; decide)
  | other _ may =>
    cases may with
    | line => exact absurd starts (by simp; decide)
    | error listed => exact ⟨_, listed, rfl⟩
    | one => exact absurd starts (by decide)
    | stored _ _ encodes => exact absurd starts encodes.not_error
    | info => exact absurd starts (by simp [Server.infoText]; decide)

end Texts

section Decoding

variable {env : Env} {supply : Supply}

/-- A tree is told apart from a line of text unless it is that very text. -/
theorem Object.same_line_iff {v : Value} {obj other : Object} {line : List UInt8} (is : (v.reread env).Is obj)
    (text : (Value.string line).Is other) : obj.Same other ↔ v = .string line := by
  constructor
  · rintro ⟨w, first, second⟩
    cases v <;> cases obj <;> simp only [Value.reread, Value.Is] at is <;> cases other <;> simp only [Value.Is] at text <;>
      cases w <;> simp only [Value.Is] at first second
    rw [← is.2, first.2, ← second.2, text.2]
  · rintro rfl
    exact ⟨.string line, is, text⟩

/-- A stored value is told apart from every miss, unless it is the String NONE, and
from every error, unless it is the String of that error's text. -/
theorem get_told_apart (grants : supply.Grants) {h other : Hub} {r q : Request} {obj : Object} {v : Value}
    (hit : h.Replied env who r text) (looks : h.Looks env r (some obj)) (is : v.Is obj)
    (replied : other.Replied env whom q answer) :
    ∃ found, Decodes env supply text found ∧
      (other.Looks env q none → ∃ missed, Decodes env supply answer missed ∧ (found.Same missed ↔ v = .string (cstr "NONE"))) ∧
      (answer.head? = some simpleErrTypeByte → ∃ failed err, Decodes env supply answer failed ∧ err ∈ serverErrors ∧
        answer = simpleErrTypeByte :: err ++ crlf ∧ (found.Same failed ↔ v = .string err)) := by
  have wire := looks.hit hit is
  have limit := hit.appended.valid.length_le
  rw [hit.appended.length, wire] at limit
  obtain ⟨found, decoded, holds⟩ := (v.reads env grants (by omega)).decodes
  refine ⟨found, wire ▸ decoded, ?_, ?_⟩
  · intro absent
    obtain ⟨missed, read, same⟩ := (none_reads env grants).decodes
    rw [absent.miss replied]
    exact ⟨missed, read, Object.same_line_iff holds same⟩
  · intro starts
    obtain ⟨err, listed, same⟩ := replied.error starts
    have short : err.length ≤ vstrMaxLargeSize := Nat.le_trans (serverErrors_short listed) (by decide)
    obtain ⟨failed, read, text⟩ := (error_reads env grants (serverErrors_inLine listed) short).decodes
    exact ⟨failed, err, same ▸ read, listed, same, Object.same_line_iff holds text⟩

end Decoding

section Runs

private def setNone : Request := sent oneDatabase 1 (cstr "*3\r\n$3\r\nSET\r\n:1\r\n$4\r\nNONE\r\n")

private def bound : Request := sent setNone.after 2 (cstr "*2\r\n$3\r\nGET\r\n:1\r\n")

private def unbound : Request := sent setNone.after 3 (cstr "*2\r\n$3\r\nGET\r\n:2\r\n")

private def invalid : Request := sent setNone.after 4 (cstr "+GIT\r\n")

private def filledHub : Hub := ⟨setNone.after, Function.update (fun _ => 0) 0 0⟩

private def noneString : Vstr := ⟨.sm (cstr "NONE" ++ List.replicate 19 0), 19⟩

private theorem filledHub_reached : ∃ start history, start.Fresh ∧ Run (Hub.Serves .sample) start history filledHub := by
  have unused : ∀ db ∈ oneDatabase.db, ∀ node, setNone.ans.node = some node → db.queue.nodes node = none := by
    intro db member node _
    cases List.mem_singleton.mp member
    rfl
  have returns : setNone.Returns .sample := rfl
  exact ⟨⟨oneDatabase, fun _ => 0⟩, [] ++ [(0, setNone)], ⟨⟨fun _ => ⟨[], 0, [], 0⟩, rfl⟩, by decide, fun _ => rfl⟩,
    .next .start ⟨⟨rfl, rfl, Answers.granted_grants _ _, unused, rfl⟩, returns, rfl⟩⟩

private theorem filledHub_db : ∃ db, filledHub.server.db = [db] ∧ db.dict.items = [⟨.int 1, .string noneString⟩] ∧
    db.vec.elems = [] ∧ db.queue = queueNew ∧ db.dict.numEntries = 1 := ⟨_, rfl, rfl, rfl, rfl, rfl⟩

private theorem filledHub_stores {db : Lexidb} (member : db ∈ filledHub.server.db) (holds : db.Stores obj) :
    obj = .int 1 ∨ obj = .string noneString := by
  obtain ⟨other, same, items, elems, queued, _⟩ := filledHub_db
  rw [same] at member
  cases List.mem_singleton.mp member
  rcases holds with ⟨entry, listed, here⟩ | listed | ⟨cells, holds, listed⟩
  · rw [items] at listed
    cases List.mem_singleton.mp listed
    exact here
  · rw [elems] at listed
    cases listed
  · rw [queued] at holds
    have none_ : cells = [] := List.length_eq_zero_iff.mp holds.count.symm
    rw [none_] at listed
    cases listed

private theorem filledHub_sendable : ∀ db ∈ filledHub.server.db, db.Sendable := by
  intro db member
  refine ⟨?_, ?_⟩
  · intro obj holds
    rcases filledHub_stores member holds with rfl | rfl
    · exact ⟨.int, .int⟩
    · exact ⟨.string, .string ⟨by decide, by decide⟩⟩
  · obtain ⟨other, same, _, _, _, count⟩ := filledHub_db
    rw [same] at member
    cases List.mem_singleton.mp member
    rw [count]
    decide

private theorem filledHub_room (input : List UInt8) : (sender input).Room filledHub.server 0 := by
  have fits : Fits (sender input).builder 1000 := by
    simp only [Fits, sender, builderNew, vstrNew_bytes]
    decide
  refine Client.room_of_bound fits (by decide) (by decide +kernel) ?_ ?_
  · intro db obj text member holds encodes
    rcases filledHub_stores member holds with rfl | rfl <;>
    · cases encodes
      decide
  · intro db walked texts here there encodes
    obtain ⟨other, same, items, _, _, count⟩ := filledHub_db
    rw [same] at here there
    cases List.mem_singleton.mp here
    cases List.mem_singleton.mp there
    rw [items] at encodes
    obtain ⟨text, rest, encoded, ended, rfl⟩ := List.forall₂_cons_left_iff.mp encodes
    cases ended
    cases encoded
    rw [count]
    decide

/-- The requests of these examples are answered. -/
private theorem filledHub_replied {address : Nat} {input text : List UInt8} (returns : (sent setNone.after address input).Returns .sample)
    (parsed : parse .sample (.granted fun _ _ => address) 64 (input.take input.length) = .ok (sent setNone.after address input).cmd)
    (built : (sent setNone.after address input).reply.builder = ⟨.sm (text ++ List.replicate avail 0), avail⟩)
    (size : text.length + avail = vstrMaxSmallSize) : filledHub.Replied .sample 1 (sent setNone.after address input) text := by
  have appended : Appended builderNew text (sent setNone.after address input).reply.builder := by
    rw [built]
    have room : avail ≤ vstrMaxSmallSize := by omega
    refine ⟨⟨by simp [size], room⟩, ?_⟩
    have front : vstrMaxSmallSize - avail = text.length := by omega
    simp [Vstr.bytes, vstrLen, vstrData, builderNew, vstrNew, front]
  have unused : ∀ db ∈ filledHub.server.db, ∀ node, (sent setNone.after address input).ans.node = some node →
      db.queue.nodes node = none := by
    intro db member node _
    obtain ⟨other, same, _, _, queued, _⟩ := filledHub_db
    rw [same] at member
    cases List.mem_singleton.mp member
    rw [queued]
    rfl
  exact ⟨filledHub_reached, ⟨rfl, rfl, Answers.granted_grants _ _, unused, parsed⟩, returns, filledHub_sendable, vstrNew_valid,
    filledHub_room _, appended⟩

theorem get_told_apart_none : ∃ found failed : Object,
    Decodes .sample (.granted fun unread _ => unread) (cstr "$4\r\nNONE\r\n") found ∧
      Decodes .sample (.granted fun unread _ => unread) (cstr "-EINVCMD\r\n") failed ∧ ¬ found.Same failed := by
  have hit : filledHub.Replied .sample 1 bound (cstr "$4\r\nNONE\r\n") := filledHub_replied rfl rfl rfl rfl
  have error : filledHub.Replied .sample 1 invalid (cstr "-EINVCMD\r\n") := filledHub_replied rfl rfl rfl rfl
  have looks : filledHub.Looks .sample bound (some (.string noneString)) := ⟨.int 1, _, by decide, rfl, rfl, rfl⟩
  have is : (Value.string (cstr "NONE")).Is (.string noneString) := ⟨⟨by decide, by decide⟩, rfl⟩
  obtain ⟨found, decoded, _, fails⟩ := get_told_apart (Supply.granted_grants fun unread _ => unread) hit looks is error
  obtain ⟨failed, err, read, listed, same, apart⟩ := fails rfl
  refine ⟨found, failed, decoded, read, ?_⟩
  rw [apart]
  rintro ⟨rfl⟩
  exact absurd same (by decide)

/-- The String NONE under key 1, and no key 2: both GETs are decoded to the same. -/
theorem get_told_apart_counterexample :
    filledHub.Replied .sample 1 bound (cstr "$4\r\nNONE\r\n") ∧ filledHub.Looks .sample bound (some (.string noneString)) ∧
      filledHub.Replied .sample 1 unbound (cstr "+NONE\r\n") ∧ filledHub.Looks .sample unbound none ∧
      ∃ found missed, Decodes .sample (.granted fun unread _ => unread) (cstr "$4\r\nNONE\r\n") found ∧
        Decodes .sample (.granted fun unread _ => unread) (cstr "+NONE\r\n") missed ∧ found.Same missed := by
  have grants := Supply.granted_grants fun unread _ => unread
  refine ⟨filledHub_replied rfl rfl rfl rfl, ⟨.int 1, _, by decide, rfl, rfl, rfl⟩,
    filledHub_replied rfl rfl rfl rfl, ⟨.int 2, _, by decide, rfl, rfl, rfl⟩, ?_⟩
  obtain ⟨found, decoded, one⟩ := ((Value.string (cstr "NONE")).reads .sample grants (by decide)).decodes
  obtain ⟨missed, read, two⟩ := (none_reads .sample grants).decodes
  exact ⟨found, missed, decoded, read, .string (cstr "NONE"), one, two⟩

end Runs

end LexiDB
