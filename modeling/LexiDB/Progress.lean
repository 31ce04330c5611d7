import LexiDB.Answered
import LexiDB.ReadRounds

/-! Which events the loop comes back from. -/

namespace LexiDB

open Lib

/-- An object whose encoding comes to an end: it has no array without elements and no
map with an entry, and its doubles are printed. -/
inductive Object.Ends (env : Env) : Object → Prop where
  | null : Ends env .null
  | int {num : Int64} : Ends env (.int num)
  | double {dbl : UInt64} (some_ : env.formatDouble dbl ≠ []) (short : (env.formatDouble dbl).length < vstrMaxLargeSize) : Ends env (.double dbl)
  | bool : Ends env (.bool boolean)
  | string {s : Vstr} (valid : s.Valid) : Ends env (.string s)
  | array {vec : Vec Object} (valid : vec.Valid) (bound : vec.cap + 3 < sizeMod) (nonempty : 0 < vec.len)
      (elems : ∀ obj ∈ vec.elems, Ends env obj) : Ends env (.array vec)
  | ht {table : Ht Object Object} (counted : table.Counted) (empty : table.items = []) : Ends env (.ht table)

/-- From some fuel on the encoder is done with the object, whatever room there is. -/
def Object.Shown (mem : Mem) (env : Env) (obj : Object) : Prop :=
  ∃ enough, ∀ fuel, enough ≤ fuel → ∀ b : Builder, b.Valid → ∃ res, builderAddObject mem env fuel b obj = .ok res

private theorem decimal_short (bound : n < sizeMod) : (decimal n).length < vstrMaxLargeSize := by
  have digits := decimal_length_le bound
  have large : 20 < vstrMaxLargeSize := by decide
  omega

section Encoder

variable {env : Env} {mem : Mem} (granted : mem.calloc.isSome)
include granted

theorem vstrFormat_granted {text : List UInt8} (some_ : text ≠ []) (short : text.length < vstrMaxLargeSize) :
    ∃ s, vstrFormat mem text = .ok s := by
  obtain ⟨address, given⟩ := Option.isSome_iff_exists.mp granted
  have positive : text.length ≠ 0 := by simpa using some_
  unfold vstrFormat
  rw [if_neg positive]
  by_cases large : text.length + 1 > vstrMaxSmallSize
  · simp [vstrNewLen, large, Nat.succ_le_of_lt short, vstrLgNewLen, given]
  · simp [vstrNewLen, large, vstrNew]

/-- What the line functions share. -/
private theorem formatted_returns {text : List UInt8} (some_ : text ≠ []) (short : text.length < vstrMaxLargeSize)
    (next : Vstr → Int × Builder) : ∃ res, (do let s ← vstrFormat mem text; pure (next s) : Except Halt (Int × Builder)) = .ok res := by
  obtain ⟨s, formatted⟩ := vstrFormat_granted granted some_ short
  exact ⟨next s, by simp [formatted]⟩

theorem builderAddArray_returns (b : Builder) (bound : len < sizeMod) : ∃ res, builderAddArray mem b len = .ok res :=
  formatted_returns granted (decimal_ne_nil len) (decimal_short bound) _

theorem builderAddHt_returns (b : Builder) (bound : len < sizeMod) : ∃ res, builderAddHt mem b len = .ok res :=
  formatted_returns granted (decimal_ne_nil len) (decimal_short bound) _

theorem builderAddInt_returns (b : Builder) (val : Int64) : ∃ res, builderAddInt mem b val = .ok res := by
  have digits := signedDecimal_length_le (natAbs_toInt_lt val)
  have large : 21 < vstrMaxLargeSize := by decide
  exact formatted_returns granted (signedDecimal_ne_nil _) (by omega) _

theorem builderAddString_returns (b : Builder) {str : List UInt8} (bound : str.length < sizeMod) :
    ∃ res, builderAddString mem b str = .ok res := by
  obtain ⟨s, formatted⟩ := vstrFormat_granted granted (decimal_ne_nil str.length) (decimal_short bound)
  unfold builderAddString
  simp only [formatted, ok_bind, pure_eq_ok]
  split
  · exact ⟨_, rfl⟩
  · split
    · exact ⟨_, rfl⟩
    · split
      · exact ⟨_, rfl⟩
      · split <;> exact ⟨_, rfl⟩

/-- The array loop from index `i` on. -/
private theorem builderAddElems_returns {vec : Vec Object} (valid : vec.Valid) (bound : vec.cap + 3 < sizeMod) :
    ∀ (rest : List Object) (i : Nat), vec.elems.drop i = rest → (∀ obj ∈ rest, obj.Shown mem env) →
      ∃ enough, ∀ fuel, enough ≤ fuel → ∀ (b : Builder) (iter : VecIter), b.Valid → iter.At vec.len i →
        ∃ res, builderAddElems mem env fuel b vec.slots iter = .ok res := by
  have length := valid.length
  have room := valid.room
  intro rest
  induction rest with
  | nil =>
    intro i remaining _
    refine ⟨1, fun fuel enough b iter _ at_ => ?_⟩
    obtain ⟨less, rfl⟩ := Nat.exists_eq_add_of_le' enough
    have past : ¬ i < vec.len := by
      have := List.drop_eq_nil_iff.mp remaining
      omega
    exact ⟨(0, b), by simp [builderAddElems, at_.2.2.1, past]⟩
  | cons obj rest ih =>
    intro i remaining each
    have inside : i < vec.elems.length := by
      by_contra past
      rw [List.drop_eq_nil_of_le (by omega)] at remaining
      cases remaining
    rw [List.drop_eq_getElem_cons inside] at remaining
    obtain ⟨here, next⟩ := List.cons.inj remaining
    obtain ⟨one, shows⟩ := each obj (by simp)
    obtain ⟨many, loop⟩ := ih (i + 1) next fun other member => each other (by simp [member])
    refine ⟨one + many + 1, fun fuel enough b iter validB at_ => ?_⟩
    obtain ⟨less, rfl⟩ := Nat.exists_eq_add_of_le' enough
    have slot : vec.slots[i]? = some obj := by
      have inElems : vec.elems[i]? = some obj := by rw [List.getElem?_eq_getElem inside, here]
      rwa [Vec.elems, List.getElem?_take, if_pos (by omega)] at inElems
    obtain ⟨⟨code, middle⟩, added⟩ := shows (less + (one + many)) (by omega) b validB
    have grown := builderAddObject_grows granted validB added
    obtain ⟨res, looped⟩ := loop (less + (one + many)) (by omega) middle (vecIterNext iter) grown.valid
      (vecIterNext_at at_ (by omega) (by omega))
    change ∃ res, builderAddElems mem env (less + (one + many) + 1) b vec.slots iter = .ok res
    simp only [builderAddElems, at_.2.2.1, show i < vec.len by omega, if_true, slot, added, ok_bind, pure_eq_ok]
    split
    · exact ⟨_, rfl⟩
    · exact ⟨res, looped⟩

theorem Object.Ends.shown {obj : Object} (ends : obj.Ends env) : obj.Shown mem env := by
  induction ends with
  | null => exact ⟨1, fun fuel enough b _ => by
      obtain ⟨less, rfl⟩ := Nat.exists_eq_add_of_le' enough
      exact ⟨_, rfl⟩⟩
  | bool => exact ⟨1, fun fuel enough b _ => by
      obtain ⟨less, rfl⟩ := Nat.exists_eq_add_of_le' enough
      exact ⟨_, rfl⟩⟩
  | @int num => exact ⟨1, fun fuel enough b _ => by
      obtain ⟨less, rfl⟩ := Nat.exists_eq_add_of_le' enough
      exact builderAddInt_returns granted b num⟩
  | double some_ short => exact ⟨1, fun fuel enough b _ => by
      obtain ⟨less, rfl⟩ := Nat.exists_eq_add_of_le' enough
      exact formatted_returns granted some_ short _⟩
  | @string s valid => exact ⟨1, fun fuel enough b _ => by
      obtain ⟨less, rfl⟩ := Nat.exists_eq_add_of_le' enough
      have most := valid.length_le
      have less : vstrMaxLargeSize < sizeMod := by decide
      exact builderAddString_returns granted b (by omega)⟩
  | @array vec valid bound nonempty _ ih =>
    have room := valid.room
    obtain ⟨many, loop⟩ := builderAddElems_returns granted valid bound vec.elems 0 rfl ih
    refine ⟨many + 1, fun fuel enough b validB => ?_⟩
    obtain ⟨less, rfl⟩ := Nat.exists_eq_add_of_le' enough
    obtain ⟨⟨code, middle⟩, headed⟩ := builderAddArray_returns granted b (show vec.len < sizeMod by omega)
    obtain ⟨res, looped⟩ := loop (less + many) (by omega) middle (vecIterNew vec) (builderAddArray_grows granted validB headed).valid
      (vecIterNew_at nonempty (by omega))
    change ∃ res, builderAddObject mem env (less + many + 1) b (.array vec) = .ok res
    simp only [builderAddObject, headed, ok_bind, pure_eq_ok]
    split
    · exact ⟨_, rfl⟩
    · exact ⟨res, looped⟩
  | @ht table counted empty =>
    refine ⟨2, fun fuel enough b _ => ?_⟩
    obtain ⟨less, rfl⟩ := Nat.exists_eq_add_of_le' enough
    have none_ : table.numEntries < sizeMod := by
      have count := counted.count
      rw [empty] at count
      simp only [List.length_nil] at count
      rw [count]
      decide
    obtain ⟨⟨code, middle⟩, headed⟩ := builderAddHt_returns granted b none_
    have done : (htIterNew table).cur = [] := (htIterNew_at counted).cur_nil.mpr empty
    change ∃ res, builderAddObject mem env (less + 1 + 1) b (.ht table) = .ok res
    simp only [builderAddObject, headed, ok_bind, pure_eq_ok, builderAddPairs, done]
    split <;> exact ⟨_, rfl⟩

/-- The loop of KEYS over the entries it has still to send. -/
private theorem builderAddKeys_returns (ht : Ht Object Object) : ∀ entries : List (HtEntry Object Object),
    (∀ entry ∈ entries, entry.key.Shown mem env) →
      ∃ enough, ∀ fuel, enough ≤ fuel → ∀ (iter : HtIter Object Object) (b : Builder), b.Valid → iter.At ht entries →
        ∃ after, builderAddKeys env mem ht fuel iter b = .ok after := by
  intro entries
  induction entries with
  | nil =>
    intro _
    refine ⟨1, fun fuel enough iter b _ at_ => ?_⟩
    obtain ⟨less, rfl⟩ := Nat.exists_eq_add_of_le' enough
    exact ⟨b, by simp [builderAddKeys, at_.cur_nil.mpr rfl]⟩
  | cons entry entries ih =>
    intro each
    obtain ⟨one, shows⟩ := each entry (by simp)
    obtain ⟨many, loop⟩ := ih fun other member => each other (by simp [member])
    refine ⟨one + many + 1, fun fuel enough iter b valid at_ => ?_⟩
    obtain ⟨less, rfl⟩ := Nat.exists_eq_add_of_le' enough
    obtain ⟨rest, cur⟩ : ∃ rest, iter.cur = entry :: rest := by
      have head := at_.2.1
      cases found : iter.cur with
      | nil => simp [found] at head
      | cons first rest =>
        rw [found] at head
        cases head
        exact ⟨rest, rfl⟩
    obtain ⟨⟨code, middle⟩, added⟩ := shows (less + (one + many)) (by omega) b valid
    obtain ⟨after, looped⟩ := loop (less + (one + many)) (by omega) (htIterNext ht iter) middle
      (builderAddObject_grows granted valid added).valid (htIterNext_at at_)
    change ∃ after, builderAddKeys env mem ht (less + (one + many) + 1) iter b = .ok after
    simp only [builderAddKeys, cur, added, ok_bind]
    exact ⟨after, looped⟩

private theorem builderAddInfo_returns : ∀ (entries : List (List UInt8 × InfoValue)) (b : Builder),
    (∀ entry ∈ entries, entry.1.length < sizeMod ∧ ∀ str, entry.2 = .string str → str.length < sizeMod) →
      ∃ after, builderAddInfo mem entries b = .ok after := by
  intro entries
  induction entries with
  | nil => exact fun b _ => ⟨b, rfl⟩
  | cons entry rest ih =>
    intro b short
    obtain ⟨name, value⟩ := entry
    obtain ⟨⟨_, named⟩, first⟩ := builderAddString_returns granted b (short (name, value) (by simp)).1
    have rest := fun other member => short other (List.mem_cons_of_mem _ member)
    simp only [builderAddInfo, first, ok_bind]
    cases value with
    | int val =>
      obtain ⟨⟨_, added⟩, second⟩ := builderAddInt_returns granted named val
      simp only [second, ok_bind]
      exact ih added rest
    | string str =>
      obtain ⟨⟨_, added⟩, second⟩ := builderAddString_returns granted named ((short (name, .string str) (by simp)).2 str rfl)
      simp only [second, ok_bind]
      exact ih added rest

end Encoder

section Stored

/-- There is one list of cells behind a head. -/
theorem Queue.Chain.unique {nodes : Nat → Option (QNode β)} : ∀ (cells others : List (Nat × β)) (head : Option Nat),
    Queue.Chain nodes head cells → Queue.Chain nodes head others → cells = others := by
  intro cells
  induction cells with
  | nil =>
    intro others head chain other
    cases head with
    | some pointer => cases chain
    | none =>
      cases others with
      | nil => rfl
      | cons => cases other
  | cons cell cells ih =>
    intro others head chain other
    cases head with
    | none => cases chain
    | some pointer =>
      cases others with
      | nil => cases other
      | cons first others =>
        obtain ⟨here, next, node, rest⟩ := chain
        obtain ⟨there, next', node', rest'⟩ := other
        rw [node] at node'
        obtain ⟨same, value⟩ := QNode.mk.inj (Option.some.inj node')
        rw [Prod.ext (here.trans there.symm) value, ih others next rest (same ▸ rest')]

/-- The objects that a command may leave in its database to be sent. -/
def Cmd.stored : Cmd → List Object
  | .set key value => [key, value]
  | .push value | .enque value => [value]
  | _ => []

/-- Whatever is stored can be encoded, and can be reached. -/
structure Lexidb.Shows (env : Env) (db : Lexidb) : Prop where
  dictPlaced : db.dict.Placed (objectOps env)
  holds : ∃ stack queue, db.Holds stack queue
  ends : ∀ obj, db.Stores obj → obj.Ends env

variable {env : Env} {ans : Answers} {db : Lexidb} {cmd : Cmd}

/-- A command leaves what was there and what it was given. -/
theorem Lexidb.Shows.operate (shows : db.Shows env) (grants : ans.Grants)
    (unused : ∀ node, ans.node = some node → db.queue.nodes node = none) (given : ∀ obj ∈ cmd.stored, obj.Ends env) :
    (cmd.operate env ans db).Shows env := by
  obtain ⟨placed, ⟨stack, queue, holds⟩, ends⟩ := shows
  have entries : ∀ entry ∈ db.dict.items, entry.key.Ends env ∧ entry.value.Ends env := fun entry member =>
    ⟨ends _ (.inl ⟨entry, member, .inl rfl⟩), ends _ (.inl ⟨entry, member, .inr rfl⟩)⟩
  have kept : (cmd.operate env ans db).Holds _ _ :=
    Lexidb.Holds.operate (a := ⟨fun _ => stack, fun _ => queue, fun _ => [], fun _ => []⟩) (d := 0) holds grants unused cmd
  -- what the stack and the queue hold after the command
  have shelves : ∀ obj, obj ∈ (Shelves.act ⟨fun _ => stack, fun _ => queue, fun _ => [], fun _ => []⟩ 0 cmd).stack 0 ∨
      obj ∈ (Shelves.act ⟨fun _ => stack, fun _ => queue, fun _ => [], fun _ => []⟩ 0 cmd).queue 0 → obj.Ends env := by
    have stacked : ∀ obj ∈ stack, obj.Ends env := fun obj member => ends obj (.inr (.inl (holds.stack ▸ member)))
    have queued : ∀ obj ∈ queue, obj.Ends env := by
      obtain ⟨cells, held, values⟩ := holds.queue
      exact fun obj member => ends obj (.inr (.inr ⟨cells, held, values ▸ member⟩))
    intro obj member
    cases cmd with
    | push value =>
      rcases member with member | member
      · simp only [Shelves.act, Function.update_self, List.mem_append, List.mem_singleton] at member
        rcases member with old | rfl
        · exact stacked obj old
        · exact given obj (by simp [Cmd.stored])
      · exact queued obj member
    | enque value =>
      rcases member with member | member
      · exact stacked obj member
      · simp only [Shelves.act, Function.update_self, List.mem_append, List.mem_singleton] at member
        rcases member with old | rfl
        · exact queued obj old
        · exact given obj (by simp [Cmd.stored])
    | pop =>
      rcases member with member | member
      · simp only [Shelves.act, Function.update_self] at member
        exact stacked obj (List.mem_of_mem_dropLast member)
      · exact queued obj member
    | deque =>
      rcases member with member | member
      · exact stacked obj member
      · simp only [Shelves.act, Function.update_self] at member
        exact queued obj (List.mem_of_mem_tail member)
    | _ => exact member.elim (stacked obj) (queued obj)
  have dict : (cmd.operate env ans db).dict.Placed (objectOps env) ∧
      ∀ entry ∈ (cmd.operate env ans db).dict.items, entry.key.Ends env ∧ entry.value.Ends env := by
    cases cmd with
    | set key value =>
      refine ⟨htInsert_placed placed _ _ _, fun entry member => ?_⟩
      have new := given value (by simp [Cmd.stored])
      rcases htInsert_items placed ans.resize key value with same | ⟨old, others, _, before, after⟩ | ⟨_, added⟩
      · exact entries entry (same ▸ member)
      · rcases List.mem_cons.mp (after.mem_iff.mp member) with rfl | other
        · exact ⟨(entries old (before.mem_iff.mpr (by simp))).1, new⟩
        · exact entries entry (before.mem_iff.mpr (by simp [other]))
      · rcases List.mem_cons.mp (added.mem_iff.mp member) with rfl | other
        · exact ⟨given key (by simp [Cmd.stored]), new⟩
        · exact entries entry other
    | del key => exact ⟨htDelete_placed placed key, fun entry member => entries entry (htDelete_subset placed key entry member)⟩
    | _ => exact ⟨placed, entries⟩
  refine ⟨dict.1, ⟨_, _, kept⟩, ?_⟩
  rintro obj (⟨entry, member, same⟩ | member | ⟨cells, held, member⟩)
  · rcases same with rfl | rfl
    · exact (dict.2 entry member).1
    · exact (dict.2 entry member).2
  · exact shelves obj (.inl (kept.stack ▸ member))
  · obtain ⟨others, also, values⟩ := kept.queue
    rw [Queue.Chain.unique cells others _ held.chain also.chain, values] at member
    exact shelves obj (.inr member)

end Stored

/-- The texts that INFO reports. -/
def Server.texts (s : Server) : List (List UInt8) := [s.executablePath, s.confFilePath.bytes, s.osName.bytes, s.addr.bytes]

/-- Their lengths are counted by a `size_t`. -/
def Server.Described (s : Server) : Prop := ∀ text ∈ s.texts, text.length < sizeMod

instance (s : Server) : Decidable s.Described := inferInstanceAs (Decidable (∀ text ∈ s.texts, _))

section Commands

variable {env : Env} {ans : Answers} {s t : Server} {c d : Client}

private theorem info_short (described : s.Described) (now : Nat) :
    ∀ entry ∈ s.info now, entry.1.length < sizeMod ∧ ∀ str, entry.2 = .string str → str.length < sizeMod := by
  have path := described s.executablePath (by simp [Server.texts])
  have conf := described s.confFilePath.bytes (by simp [Server.texts])
  have os := described s.osName.bytes (by simp [Server.texts])
  have host := described s.addr.bytes (by simp [Server.texts])
  have uptime : (decimal ((now + sizeMod - s.startTime % sizeMod) % sizeMod) ++ cstr " secs").length < sizeMod := by
    have digits := decimal_length_le (Nat.mod_lt (now + sizeMod - s.startTime % sizeMod) (show 0 < sizeMod by decide))
    rw [List.length_append]
    exact Nat.lt_of_le_of_lt (Nat.add_le_add_right digits _) (by decide)
  have names : ∀ entry ∈ s.info now, entry.1.length < sizeMod := by
    intro entry member
    simp only [Server.info, List.mem_cons, List.not_mem_nil, or_false] at member
    rcases member with rfl | rfl | rfl | rfl | rfl | rfl | rfl | rfl | rfl | rfl | rfl <;> dsimp only <;> decide
  refine fun entry member => ⟨names entry member, fun str same => ?_⟩
  simp only [Server.info, List.mem_cons, List.not_mem_nil, or_false] at member
  rcases member with rfl | rfl | rfl | rfl | rfl | rfl | rfl | rfl | rfl | rfl | rfl <;> cases same
  · exact path
  · exact conf
  · exact os
  · decide
  · exact host
  · exact uptime

variable (granted : ans.reply.calloc.isSome) (valid : c.builder.Valid)
include granted valid

theorem replyObject_returns {obj : Option Object} (ends : ∀ value, obj = some value → value.Ends env) :
    ∃ fuel left, replyObject env ans fuel s c obj = .ok left := by
  cases obj with
  | none => exact ⟨0, _, rfl⟩
  | some obj =>
    have shown : obj.Shown ans.reply env := (ends obj rfl).shown granted
    obtain ⟨enough, shows⟩ := shown
    obtain ⟨res, added⟩ := shows enough (Nat.le_refl _) c.builder valid
    exact ⟨enough, _, by simp [replyObject, added]; rfl⟩

/-- Every command is answered, whatever room there is. -/
theorem dispatch_returns (described : s.Described) (found : s.db[c.databaseNum]? = some db) (shows : db.Shows env)
    (first : s.db[0]? = some walked) (walks : walked.Shows env) (count : db.dict.numEntries < sizeMod) (cmd : Cmd) :
    ∃ fuel left, dispatch env ans fuel s c cmd = .ok left := by
  obtain ⟨_, ⟨stack, queue, holds⟩, ends⟩ := shows
  cases cmd with
  | okc | illegal | help | ping | auth => exact ⟨0, _, rfl⟩
  | select value =>
    simp only [dispatch]
    split <;> exact ⟨0, _, rfl⟩
  | infoc =>
    obtain ⟨⟨code, middle⟩, headed⟩ := builderAddHt_returns granted c.builder (show 11 < sizeMod by decide)
    obtain ⟨after, added⟩ := builderAddInfo_returns granted (s.info ans.now) middle (info_short described ans.now)
    exact ⟨0, (s.counted, { c with builder := after }), by simp [dispatch, headed, added]⟩
  | keys =>
    simp only [dispatch, executeKeys, onDb_found found, ok_bind]
    split
    · exact ⟨0, _, rfl⟩
    · obtain ⟨⟨code, middle⟩, headed⟩ := builderAddArray_returns granted c.builder count
      have shown : ∀ entry ∈ walked.dict.items, entry.key.Shown ans.reply env := fun entry member =>
        (walks.ends entry.key (.inl ⟨entry, member, .inl rfl⟩)).shown granted
      obtain ⟨enough, loops⟩ := builderAddKeys_returns granted walked.dict walked.dict.items shown
      obtain ⟨after, looped⟩ := loops enough (Nat.le_refl _) (htIterNew walked.dict) middle
        (builderAddArray_grows granted valid headed).valid (htIterNew_at walks.dictPlaced.toCounted)
      exact ⟨enough, (s.counted, { c with builder := after }), by simp [onDb_found first, headed, looped]⟩
  | set | del | push | enque | zset | zdel =>
    simp only [dispatch, executeSetCommand, executeDelCommand, executePushCommand, executeEnqueCommand, executeZsetCommand,
      executeZdelCommand, onDb_found found, ok_bind]
    exact ⟨0, _, rfl⟩
  | get key =>
    simp only [dispatch, executeGetCommand, onDb_found found, ok_bind]
    exact replyObject_returns granted valid fun value got => ends value (htGet_stored got)
  | pop =>
    simp only [dispatch, executePopCommand, onDb_found found, ok_bind]
    exact replyObject_returns granted valid fun value got => ends value (vecPop_stored holds.valid got)
  | deque =>
    obtain ⟨cells, held, _⟩ := holds.queue
    simp only [dispatch, executeDequeCommand, onDb_found found, ok_bind]
    exact replyObject_returns granted valid fun value got => ends value (queueDeque_stored held got)
  | zhas value =>
    simp only [dispatch, executeZhasCommand, onDb_found found, ok_bind]
    split
    · obtain ⟨res, added⟩ := builderAddInt_returns granted c.builder 1
      exact ⟨0, _, by simp [added]; rfl⟩
    · exact ⟨0, _, rfl⟩

/-- `execute_cmd` returns once the parser does. -/
theorem executeCmd_returns (described : s.Described) (found : s.db[c.databaseNum]? = some db) (shows : db.Shows env)
    (first : s.db[0]? = some walked) (walks : walked.Shows env) (count : db.dict.numEntries < sizeMod)
    (parsed : parse env ans.supply words (c.readBuf.take c.readPos) = .ok cmd) :
    ∃ left enough, ∀ fuel, enough ≤ fuel → executeCmd env ans fuel s c = .ok left := by
  suffices some_ : ∃ enough left, executeCmd env ans enough s c = .ok left by
    obtain ⟨enough, left, done⟩ := some_
    exact ⟨left, enough, fun fuel more => executeCmd_mono.ok_le done more⟩
  by_cases illegal : cmd.type = .illegal
  · exact ⟨words, _, by simp only [executeCmd, parsed, ok_bind, if_pos illegal]; rfl⟩
  · by_cases refused : ¬ c.Authenticated ∧ cmd.type ≠ .auth
    · exact ⟨words, _, by simp only [executeCmd, parsed, ok_bind, if_neg illegal, if_pos refused]; rfl⟩
    · obtain ⟨fuel, ⟨t, d⟩, done⟩ := dispatch_returns granted valid described found shows first walks count cmd
      exact ⟨words + fuel, (t, d), executeCmd_dispatched illegal (by tauto) parsed done⟩

end Commands

section Loops

variable {grow : Nat → Bool}

/-- The loop has a round for every byte. -/
theorem readLoop_returns : ∀ (fuel : Nat) (arrivals : List Arrival) (c : Client), Arrival.rounds arrivals ≤ fuel →
    ∃ res, readLoop grow fuel arrivals c = .ok res := by
  intro fuel
  induction fuel with
  | zero =>
    intro arrivals c rounds
    have := Arrival.rounds_pos arrivals
    omega
  | succ fuel ih =>
    intro arrivals c rounds
    unfold readLoop
    split
    · exact ⟨_, rfl⟩
    · rename_i ready _
      split
      · exact ⟨_, rfl⟩
      · exact ⟨_, rfl⟩
      · exact ⟨_, rfl⟩
      · rename_i bytes rest
        simp only [Arrival.rounds] at rounds
        dsimp only
        split
        · exact ⟨_, rfl⟩
        · rename_i some_
          have taken : 0 < (bytes.take (ready.readCap - ready.readPos)).length := List.length_pos_of_ne_nil some_
          have most : (bytes.take (ready.readCap - ready.readPos)).length ≤ bytes.length := List.length_take_le' _ _
          split
          · exact ih rest _ (by omega)
          · refine ih _ _ ?_
            simp only [Arrival.rounds, List.length_drop]
            omega

/-- Where a write would block or fails, the loop is left. -/
theorem writeLoop_returns (size : Nat) : ∀ (writes : List WriteOutcome) (bytesSent : Nat), .again ∈ writes ∨ .fail ∈ writes →
    ∃ res, writeLoop size writes bytesSent = .ok res := by
  intro writes
  induction writes with
  | nil => simp
  | cons outcome rest ih =>
    intro bytesSent blocks
    unfold writeLoop
    split
    · cases outcome with
      | again => exact ⟨_, rfl⟩
      | fail => exact ⟨_, rfl⟩
      | sent amount =>
        obtain ⟨⟨done, chunks⟩, looped⟩ := ih (bytesSent + amount) (by simpa using blocks)
        exact ⟨(done, ⟨0, amount⟩ :: chunks), by simp [looped]⟩
    · exact ⟨_, rfl⟩

end Loops

variable {α : Type}

/-- The same answers, and this fuel. -/
def Kernel.fueled (k : Kernel α) (fuel : Nat) : Kernel α := { k with fuel := fuel }

def Fired.fueled (e : Fired α) (fuel : Nat) : Fired α := { e with k := e.k.fueled fuel }

/-- The parser returns from what the event reads of a client, if it reads any. -/
def Fired.Parsed (env : Env) (e : Fired α) (w : World α) : Prop :=
  (w.ev.entry e.fd).mask &&& e.mask &&& evRead ≠ 0 → ∀ i pointer c d,
    findClient w.heap e.fd 0 w.server.clients.elems = .ok (some (i, pointer, c)) →
    readLoop e.k.grow (Arrival.rounds e.k.arrivals) e.k.arrivals c = .ok (.burst, d) →
      ∃ fuel cmd, parse env e.k.ans.supply fuel (d.readBuf.take d.readPos) = .ok cmd

namespace World

/-- Every client can be answered whatever it asks. -/
structure Answering (env : Env) (w : World α) : Prop where
  described : w.server.Described
  writable : w.Writable
  shows : ∀ db ∈ w.server.db, db.Shows env
  count : ∀ db ∈ w.server.db, db.dict.numEntries < sizeMod
  inside : ∀ who c, w.heap who = some c → c.databaseNum < w.server.db.length

section Events

variable {env : Env} {w : World α} (wired : w.Wired)
include wired

theorem Wired.readFromClient_returns {k : Kernel α} (mask : UInt32) (answering : w.Answering env) (granted : k.ans.reply.calloc.isSome)
    (masked : (w.ev.entry fd).mask ≠ evNone) (client : fd ≠ w.server.sfd)
    (parsed : ∀ i pointer c d, LexiDB.findClient w.heap fd 0 w.server.clients.elems = .ok (some (i, pointer, c)) →
      readLoop k.grow (Arrival.rounds k.arrivals) k.arrivals c = .ok (.burst, d) →
        ∃ fuel cmd, parse env k.ans.supply fuel (d.readBuf.take d.readPos) = .ok cmd) :
    ∃ after enough, ∀ fuel, enough ≤ fuel → w.readFromClient env (k.fueled fuel) fd mask = .ok after := by
  obtain ⟨i, pointer, c, found, _, here, rfl⟩ := wired.findClient masked client
  have loops : ∃ res, readLoop k.grow (Arrival.rounds k.arrivals) k.arrivals c = .ok res := readLoop_returns _ k.arrivals c (Nat.le_refl _)
  obtain ⟨⟨ended, d⟩, looped⟩ := loops
  cases ended with
  | closed => exact ⟨_, 0, fun fuel _ => by simp only [readFromClient, found, ok_bind, Kernel.fueled, looped]; rfl⟩
  | failed => exact ⟨_, 0, fun fuel _ => by simp only [readFromClient, found, ok_bind, Kernel.fueled, looped]; rfl⟩
  | burst =>
    obtain ⟨words, cmd, word⟩ := parsed i pointer c d found looped
    have same : d.databaseNum = c.databaseNum ∧ d.builder = c.builder := by
      obtain ⟨_, _, _, rfl⟩ := readLoop_buffered _ _ _ _ _ looped
      exact ⟨rfl, rfl⟩
    have inside := answering.inside pointer c here
    rw [← same.1] at inside
    have nonempty : 0 < w.server.db.length := Nat.zero_lt_of_lt inside
    have first : w.server.db[0]? = some w.server.db[0] := List.getElem?_eq_getElem nonempty
    have selected : w.server.db[d.databaseNum]? = some w.server.db[d.databaseNum] := List.getElem?_eq_getElem inside
    have valid : d.builder.Valid := same.2 ▸ answering.writable pointer c here
    obtain ⟨⟨s, e⟩, enough, executed⟩ := executeCmd_returns granted valid answering.described selected
      (answering.shows _ (List.mem_of_getElem? selected)) first (answering.shows _ (List.mem_of_getElem? first))
      (answering.count _ (List.mem_of_getElem? selected)) word
    refine ⟨w.answered k c.fd pointer (s, e), enough, fun fuel more => ?_⟩
    rw [readFromClient_burst env (k := k.fueled fuel) c.fd found looped mask]
    exact (congrArg (· >>= _) (executed fuel more)).trans rfl

theorem Wired.writeToClient_returns {k : Kernel α} (mask : UInt32) (masked : (w.ev.entry fd).mask ≠ evNone) (client : fd ≠ w.server.sfd)
    (blocks : .again ∈ k.writes ∨ .fail ∈ k.writes) : ∃ res, w.writeToClient k fd mask = .ok res := by
  obtain ⟨i, pointer, c, found, _, here, rfl⟩ := wired.findClient masked client
  obtain ⟨⟨done, chunks⟩, looped⟩ := writeLoop_returns c.writeSize k.writes 0 blocks
  simp only [writeToClient, found, ok_bind, looped]
  split <;> exact ⟨_, rfl⟩

/-- An event that the parser returns from is processed. -/
theorem Wired.processed {e : Fired α} (possible : e.k.Possible w) (clean : e.Clean w) (answering : w.Answering env)
    (granted : e.k.ans.reply.calloc.isSome) (blocks : .again ∈ e.k.writes ∨ .fail ∈ e.k.writes) (parsed : e.Parsed env w) :
    ∃ after enough, ∀ fuel, enough ≤ fuel → w.processEvent env (e.k.fueled fuel) e.fd e.mask = .ok after := by
  have upright := (wired.slots e.fd).upright
  obtain ⟨middle, fired, rewired, enough, first⟩ : ∃ (middle : World α) (fired : Bool), middle.Wired ∧ ∃ enough, ∀ fuel, enough ≤ fuel →
      w.callIf env (e.k.fueled fuel) (¬ (w.ev.entry e.fd).mask &&& evBoth ≠ 0 ∧ (w.ev.entry e.fd).mask &&& e.mask &&& evRead ≠ 0)
        (w.ev.entry e.fd).readFn e.fd e.mask false = .ok (middle, fired) := by
    by_cases reads : (w.ev.entry e.fd).mask &&& e.mask &&& evRead ≠ 0
    · obtain ⟨registered, masked⟩ := registered_of_fired reads
      have leads := (wired.slots e.fd).reads registered
      have cleanly := clean reads
      have guard : ¬ (w.ev.entry e.fd).mask &&& evBoth ≠ 0 ∧ (w.ev.entry e.fd).mask &&& e.mask &&& evRead ≠ 0 :=
        ⟨not_not.mpr upright, reads⟩
      by_cases own : e.fd = w.server.sfd
      · rw [if_pos own] at leads cleanly
        refine ⟨w.serverAccept e.k, true, serverAccept_wired wired possible cleanly, 0, fun fuel _ => ?_⟩
        rw [callIf, if_pos guard, leads]
        rfl
      · rw [if_neg own] at leads cleanly
        obtain ⟨after, enough, returns⟩ :=
          wired.readFromClient_returns e.mask answering granted masked own (parsed reads)
        refine ⟨after, true, readFromClient_wired (k := e.k.fueled enough) wired masked own cleanly (returns enough (Nat.le_refl _)),
          enough, fun fuel more => ?_⟩
        rw [callIf, if_pos guard, leads, callback, returns fuel more]
        rfl
    · refine ⟨w, false, wired, 0, fun fuel _ => ?_⟩
      rw [callIf, if_neg fun guard => reads guard.2]
      rfl
  obtain ⟨after, again, second⟩ : ∃ (after : World α) (again : Bool), ∀ fuel,
      middle.callIf env (e.k.fueled fuel) ((middle.ev.entry e.fd).mask &&& e.mask &&& evWrite ≠ 0 ∧
          (fired = false ∨ (middle.ev.entry e.fd).writeFn ≠ (middle.ev.entry e.fd).readFn))
        (middle.ev.entry e.fd).writeFn e.fd e.mask fired = .ok (after, again) := by
    by_cases guard : (middle.ev.entry e.fd).mask &&& e.mask &&& evWrite ≠ 0 ∧
        (fired = false ∨ (middle.ev.entry e.fd).writeFn ≠ (middle.ev.entry e.fd).readFn)
    · obtain ⟨registered, masked⟩ := registered_of_fired guard.1
      obtain ⟨leads, client⟩ := (rewired.slots e.fd).writes registered
      obtain ⟨⟨after, chunks⟩, wrote⟩ := rewired.writeToClient_returns e.mask masked client blocks
      refine ⟨after, true, fun fuel => ?_⟩
      have called : middle.callback env (e.k.fueled fuel) (some .writeToClient) e.fd e.mask = .ok after :=
        bind_eq_ok.mpr ⟨(after, chunks), wrote, rfl⟩
      rw [callIf, if_pos guard, leads, called]
      rfl
    · refine ⟨middle, fired, fun fuel => ?_⟩
      rw [callIf, if_neg guard]
      rfl
  refine ⟨after, enough, fun fuel more => ?_⟩
  simp only [processEvent, first fuel more, ok_bind, second fuel]
  -- without the bit `EV_BOTH` the read callback does not come last
  rw [callIf, if_neg fun guard => guard.1 upright]
  rfl

end Events

end World

/-- A queue node is allocated at an address no queue has in use, and what is left to be
sent can be encoded. -/
structure Request.Mild (env : Env) (r : Request) : Prop where
  unused : ∀ db ∈ r.before.db, ∀ node, r.ans.node = some node → db.queue.nodes node = none
  stored : ∀ obj ∈ r.cmd.stored, obj.Ends env

theorem Request.Mild.operates {r : Request} (mild : r.Mild env) (grants : r.ans.Grants) :
    r.Operates env fun _ db _ => db.Shows env := by
  intro db a found _ shows
  refine shows.operate grants (mild.unused db (List.mem_of_getElem? found)) fun obj member => ?_
  unfold Client.obeys at member
  split at member
  · cases member
  · exact mild.stored obj member

section Runs

variable {env : Env} {config : Config} {start w : World α} {history : List (Fired α × Option Occurrence)}

variable (launched : start.Launched env config) (digests : ∀ text, (env.sha256 text).length = 32) (described : start.server.Described)
  (granted : ∀ step ∈ history, step.1.k.ans.Grants)
  (mild : ∀ step ∈ history, ∀ who r, step.2 = some (.asked who r) → r.Mild env)
include launched digests described granted mild

end Runs

section Root

end Root

end LexiDB
