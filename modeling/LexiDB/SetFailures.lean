import LexiDB.Requests
import LexiDB.TableCalls

/-! What `set_insert` reports when the allocator fails it, and what ZSET makes of
the report. -/

namespace LexiDB

open Lib

section Insert

variable {ops : KeyOps α} {s t : LexiSet α} {mem : SetMem} {data : α}

/-- The table in which `set_insert` looks the element up. -/
def LexiSet.searched (ops : KeyOps α) (mem : SetMem) (s : LexiSet α) : Option (LexiSet α) :=
  if s.numEntries ≥ s.capacity then setResize ops mem s else some s

/-- The chain in which the element belongs. -/
def LexiSet.bucket (ops : KeyOps α) (s : LexiSet α) (data : α) : List α := chainAt s.entries (setHash ops s data)

theorem LexiSet.Placed.mem_bucket (placed : s.Placed ops) :
    stored ∈ s.bucket ops data ↔ stored ∈ s.items ∧ ops.hash s.seed stored % s.capacity = ops.hash s.seed data % s.capacity := by
  rw [LexiSet.bucket, placed.placed.mem_chainAt, placed.size]
  rfl

theorem setHas_iff : setHas ops s data = true ↔ ∃ stored ∈ s.bucket ops data, ops.compare data stored = 0 := by
  simp only [setHas, LexiSet.bucket, List.any_eq_true, KeyOps.same, decide_eq_true_eq]

/-- The growth that a full set needs is granted. -/
def LexiSet.Grows (s : LexiSet α) (mem : SetMem) : Prop := s.numEntries ≥ s.capacity → mem.resize = true

/-- The capacity under which the element is looked up: a full set doubles its own. -/
def LexiSet.grownCapacity (s : LexiSet α) : Nat := if s.numEntries ≥ s.capacity then s.capacity * 2 else s.capacity

/-- The stored element comes to be in the chain of the other one. -/
def LexiSet.Shares (ops : KeyOps α) (s : LexiSet α) (data stored : α) : Prop :=
  ops.hash s.seed stored % s.grownCapacity = ops.hash s.seed data % s.grownCapacity

theorem LexiSet.searched_eq_none : s.searched ops mem = none ↔ ¬s.Grows mem := by
  unfold searched setResize Grows
  split <;> simp_all

theorem LexiSet.grows_of_searched (found : s.searched ops mem = some t) : s.Grows mem := by
  by_contra refused
  rw [LexiSet.searched_eq_none.mpr refused] at found
  cases found

/-- The growth keeps the elements, and each comes to the chain of its hash. -/
theorem LexiSet.searched_spec (placed : s.Placed ops) (found : s.searched ops mem = some t) :
    t.Placed ops ∧ t.items.Perm s.items ∧ t.seed = s.seed ∧ t.capacity = s.grownCapacity := by
  unfold searched at found
  unfold grownCapacity
  split at found
  · rename_i full
    obtain ⟨kept, perm⟩ := setResize_spec placed found
    unfold setResize at found
    split at found
    · cases found
      exact ⟨kept, perm, rfl, (if_pos full).symm⟩
    · cases found
  · rename_i roomy
    cases found
    exact ⟨placed, .refl _, rfl, (if_neg roomy).symm⟩

theorem LexiSet.mem_searched (placed : s.Placed ops) (found : s.searched ops mem = some t) :
    stored ∈ t.bucket ops data ↔ stored ∈ s.items ∧ s.Shares ops data stored := by
  obtain ⟨kept, perm, seed, capacity⟩ := LexiSet.searched_spec placed found
  rw [kept.mem_bucket, perm.mem_iff, seed, capacity]
  rfl

theorem LexiSet.bucket_eq_nil (placed : s.Placed ops) (found : s.searched ops mem = some t) :
    t.bucket ops data = [] ↔ ∀ stored ∈ s.items, ¬s.Shares ops data stored := by
  rw [List.eq_nil_iff_forall_not_mem]
  simp only [LexiSet.mem_searched placed found, not_and]

theorem LexiSet.has_searched_iff (placed : s.Placed ops) (found : s.searched ops mem = some t) :
    setHas ops t data = true ↔ ∃ stored ∈ s.items, s.Shares ops data stored ∧ ops.compare data stored = 0 := by
  simp only [setHas_iff, LexiSet.mem_searched placed found, and_assoc]

/-- What is found after the growth was found before it. -/
theorem LexiSet.has_of_shares (placed : s.Placed ops) (found : ∃ stored ∈ s.items, s.Shares ops data stored ∧ ops.compare data stored = 0) :
    setHas ops s data = true := by
  obtain ⟨stored, member, shares, same⟩ := found
  have finer : s.capacity ∣ s.grownCapacity := by
    unfold grownCapacity
    split
    · exact Nat.dvd_mul_right ..
    · exact Nat.dvd_refl _
  have coarser : ops.hash s.seed stored % s.capacity = ops.hash s.seed data % s.capacity := by
    rw [← Nat.mod_mod_of_dvd _ finer, shares, Nat.mod_mod_of_dvd _ finer]
  exact setHas_iff.mpr ⟨stored, placed.mem_bucket.mpr ⟨member, coarser⟩, same⟩

/-- A comparison that respects the bytes finds an element wherever the growth puts it. -/
theorem LexiSet.shares_of_has (respects : ops.Respects) (placed : s.Placed ops) (has : setHas ops s data = true) :
    ∃ stored ∈ s.items, s.Shares ops data stored ∧ ops.compare data stored = 0 := by
  obtain ⟨stored, member, same⟩ := setHas_iff.mp has
  have bytes : ops.hash s.seed stored = ops.hash s.seed data := by simp only [KeyOps.hash, respects.raw_eq same]
  exact ⟨stored, (placed.mem_bucket.mp member).1, by rw [LexiSet.Shares, bytes], same⟩

/-- The element in front of its chain, and counted. -/
def LexiSet.linked (ops : KeyOps α) (s : LexiSet α) (data : α) : LexiSet α :=
  { s with entries := s.entries.set (setHash ops s data) (data :: s.bucket ops data), numEntries := s.numEntries + 1 }

private theorem setInsert_searched (found : s.searched ops mem = some t) :
    setInsert ops mem s data =
      if t.bucket ops data = [] then if mem.entry then (.ok, t.linked ops data) else (.failed, t)
      else if setHas ops t data then (.keyExists, t)
      else if mem.entry then (.ok, t.linked ops data) else (.oom, t) := by
  unfold LexiSet.searched at found
  simp only [setInsert, found]
  rfl

/-- Every way `set_insert` can go, by the table it looks into. -/
theorem setInsert_cases (placed : s.Placed ops) (mem : SetMem) (data : α) :
    s.searched ops mem = none ∧ setInsert ops mem s data = (.oom, s) ∨
      ∃ t, s.searched ops mem = some t ∧
        (setHas ops t data = true ∧ setInsert ops mem s data = (.keyExists, t) ∨
          setHas ops t data = false ∧ mem.entry = true ∧
            (∃ after, setInsert ops mem s data = (.ok, after) ∧ after.Placed ops ∧ after.items.Perm (data :: t.items)) ∨
          setHas ops t data = false ∧ mem.entry = false ∧
            setInsert ops mem s data = (if t.bucket ops data = [] then .failed else .oom, t)) := by
  cases found : s.searched ops mem with
  | none =>
    unfold LexiSet.searched at found
    exact .inl ⟨rfl, by simp only [setInsert, found]⟩
  | some t =>
    right
    obtain ⟨kept, _⟩ := LexiSet.searched_spec placed found
    have inside := kept.slot_lt data
    have empty : t.bucket ops data = [] → setHas ops t data = false := by
      intro none_
      simp only [setHas, ← LexiSet.bucket.eq_1, none_, List.any_nil]
    rw [setInsert_searched found]
    refine ⟨t, rfl, ?_⟩
    cases has : setHas ops t data with
    | true =>
      have some_ : t.bucket ops data ≠ [] := fun none_ => by simp [empty none_] at has
      exact .inl ⟨rfl, by rw [if_neg some_, if_pos rfl]⟩
    | false =>
      cases entry : mem.entry with
      | true =>
        refine .inr (.inl ⟨rfl, rfl, t.linked ops data, ?_, kept.link data, flatten_set_perm inside data⟩)
        simp only [Bool.false_eq_true, ↓reduceIte, ite_self]
      | false =>
        refine .inr (.inr ⟨rfl, rfl, ?_⟩)
        simp only [Bool.false_eq_true, ↓reduceIte]
        split <;> rfl

end Insert

section Truthful

variable {ops : KeyOps α} {s t : LexiSet α} {mem : SetMem} {data : α}

/-- A set that some calls make of a new one, whatever the allocator answered. -/
def LexiSet.Reached (ops : KeyOps α) (s : LexiSet α) : Prop :=
  ∃ seed calls, s = (answers (LexiSet.step ops) (setNew seed) calls).2

theorem LexiSet.step_placed (placed : s.Placed ops) (call : SetMem × SetCall α) : (LexiSet.step ops s call).2.Placed ops := by
  obtain ⟨mem, call⟩ := call
  cases call with
  | has data => exact placed
  | delete data => exact setDelete_placed placed data
  | insert data =>
    change (setInsert ops mem s data).2.Placed ops
    rcases setInsert_cases placed mem data with ⟨_, same⟩ | ⟨t, found, outcome⟩
    · rw [same]
      exact placed
    · have kept := (LexiSet.searched_spec placed found).1
      rcases outcome with ⟨_, same⟩ | ⟨_, _, after, same, linked, _⟩ | ⟨_, _, same⟩
      · rw [same]
        exact kept
      · rw [same]
        exact linked
      · rw [same]
        exact kept

theorem LexiSet.Reached.placed (reached : s.Reached ops) : s.Placed ops := by
  obtain ⟨seed, calls, rfl⟩ := reached
  exact answers_keep (LexiSet.Placed ops) (LexiSet.step ops) (fun _ call placed => LexiSet.step_placed placed call) calls (setNew_placed ops seed)

/-- The element was not there and now is, besides all the others. -/
def LexiSet.Added (ops : KeyOps α) (s after : LexiSet α) (data : α) : Prop :=
  setHas ops s data = false ∧ after.items.Perm (data :: s.items) ∧ setLen after = setLen s + 1

/-- `set_insert` returns what it did, and what it did not add it did not change. -/
structure LexiSet.Truthful (ops : KeyOps α) (s : LexiSet α) (mem : SetMem) (data : α) : Prop where
  ok : (setInsert ops mem s data).1 = .ok ↔ s.Added ops (setInsert ops mem s data).2 data
  keyExists : (setInsert ops mem s data).1 = .keyExists ↔ setHas ops s data = true
  oom : (setInsert ops mem s data).1 = .oom ↔ ¬s.Added ops (setInsert ops mem s data).2 data ∧ setHas ops s data = false
  unchanged : (setInsert ops mem s data).1 = .keyExists ∨ (setInsert ops mem s data).1 = .oom →
    (setInsert ops mem s data).2.items.Perm s.items ∧ setLen (setInsert ops mem s data).2 = setLen s

/-- An element that comes to an empty chain gets its entry. -/
def LexiSet.Links (ops : KeyOps α) (s : LexiSet α) (mem : SetMem) (data : α) : Prop :=
  s.Grows mem → (∀ stored ∈ s.items, ¬s.Shares ops data stored) → mem.entry = true

/-- An element that is there does not meet a growth that is refused, nor one that parts
it from all it is equal to, and one that comes to an empty chain gets its entry. -/
structure LexiSet.Reports (ops : KeyOps α) (s : LexiSet α) (mem : SetMem) (data : α) : Prop where
  grows : setHas ops s data = true → s.Grows mem
  shares : setHas ops s data = true → s.Grows mem → ∃ stored ∈ s.items, s.Shares ops data stored ∧ ops.compare data stored = 0
  links : s.Links ops mem data

private theorem LexiSet.Placed.len_eq (placed : s.Placed ops) (kept : t.Placed ops) (perm : t.items.Perm s.items) : setLen t = setLen s := by
  rw [setLen, setLen, kept.count, placed.count, perm.length_eq]

private theorem LexiSet.not_added (perm : t.items.Perm s.items) : ¬s.Added ops t data := by
  intro added
  have longer := added.2.1.length_eq
  rw [perm.length_eq, List.length_cons] at longer
  omega

/-- What is found is reported as found. -/
private theorem LexiSet.truthful_found (placed : s.Placed ops) (found : s.searched ops mem = some t) (has : setHas ops t data = true)
    (result : setInsert ops mem s data = (.keyExists, t)) : s.Truthful ops mem data := by
  obtain ⟨kept, perm, _⟩ := LexiSet.searched_spec placed found
  have before := LexiSet.has_of_shares placed ((LexiSet.has_searched_iff placed found).mp has)
  have same : ¬s.Added ops t data := LexiSet.not_added perm
  constructor <;> simp [result, before, same, perm, placed.len_eq kept perm]

private theorem LexiSet.truthful_added (placed : s.Placed ops) (kept : after.Placed ops) (perm : after.items.Perm (data :: s.items))
    (result : setInsert ops mem s data = (.ok, after)) : s.Truthful ops mem data ↔ setHas ops s data = false := by
  have longer : setLen after = setLen s + 1 := by
    rw [setLen, setLen, kept.count, placed.count, perm.length_eq, List.length_cons]
  constructor
  · intro truthful
    exact (truthful.ok.mp (by rw [result])).1
  · intro lacks
    have added : s.Added ops after data := ⟨lacks, perm, longer⟩
    constructor <;> simp [result, lacks, added]

/-- A refusal is truthful exactly if the element is not there. -/
private theorem LexiSet.truthful_oom (placed : s.Placed ops) (kept : t.Placed ops) (perm : t.items.Perm s.items)
    (result : setInsert ops mem s data = (.oom, t)) : s.Truthful ops mem data ↔ setHas ops s data = false := by
  have same : ¬s.Added ops t data := LexiSet.not_added perm
  constructor
  · intro truthful
    exact (truthful.oom.mp (by rw [result])).2
  · intro lacks
    constructor <;> simp [result, lacks, same, perm, placed.len_eq kept perm]

private theorem LexiSet.not_truthful_failed (perm : t.items.Perm s.items) (result : setInsert ops mem s data = (.failed, t)) :
    ¬s.Truthful ops mem data := by
  intro truthful
  have same : ¬s.Added ops t data := LexiSet.not_added perm
  have exists_ := truthful.keyExists
  have oom := truthful.oom
  simp only [result, reduceCtorEq, false_iff, same, not_false_eq_true, true_and] at exists_ oom
  exact oom (by simpa using exists_)

theorem LexiSet.truthful_iff (placed : s.Placed ops) (mem : SetMem) (data : α) : s.Truthful ops mem data ↔ s.Reports ops mem data := by
  rcases setInsert_cases placed mem data with ⟨none_, result⟩ | ⟨t, found, outcome⟩
  · have refused := LexiSet.searched_eq_none.mp none_
    rw [LexiSet.truthful_oom placed placed (.refl _) result]
    constructor
    · intro lacks
      exact ⟨by simp [lacks], by simp [lacks], fun grows => absurd grows refused⟩
    · intro reports
      exact Bool.eq_false_iff.mpr fun has => refused (reports.grows has)
  · obtain ⟨kept, perm, _⟩ := LexiSet.searched_spec placed found
    have grows := LexiSet.grows_of_searched found
    have reports : s.Reports ops mem data ↔
        (setHas ops s data = true → setHas ops t data = true) ∧ (t.bucket ops data = [] → mem.entry = true) := by
      rw [LexiSet.has_searched_iff placed found, LexiSet.bucket_eq_nil placed found]
      constructor
      · intro reports
        exact ⟨fun has => reports.shares has grows, reports.links grows⟩
      · rintro ⟨shares, links⟩
        exact ⟨fun _ => grows, fun has _ => shares has, fun _ => links⟩
    rw [reports]
    rcases outcome with ⟨has, result⟩ | ⟨lacks, entry, after, result, linked, added⟩ | ⟨lacks, entry, result⟩
    · have some_ : t.bucket ops data ≠ [] := by
        intro none_
        obtain ⟨stored, member, _⟩ := setHas_iff.mp has
        rw [none_] at member
        cases member
      exact iff_of_true (LexiSet.truthful_found placed found has result) ⟨fun _ => has, fun none_ => absurd none_ some_⟩
    · rw [LexiSet.truthful_added placed linked (added.trans (.cons _ perm)) result]
      simp [lacks, entry]
    · by_cases none_ : t.bucket ops data = []
      · rw [if_pos none_] at result
        refine iff_of_false (LexiSet.not_truthful_failed perm result) (fun reports => ?_)
        rw [reports.2 none_] at entry
        cases entry
      · rw [if_neg none_] at result
        rw [LexiSet.truthful_oom placed kept perm result]
        simp [lacks, none_]

/-- Under a comparison that respects the bytes the growth parts nothing. -/
theorem LexiSet.reports_of_respects (respects : ops.Respects) (placed : s.Placed ops) (mem : SetMem) (data : α) :
    s.Reports ops mem data ↔ (setHas ops s data = true → s.Grows mem) ∧ s.Links ops mem data := by
  constructor
  · intro reports
    exact ⟨reports.grows, reports.links⟩
  · rintro ⟨grows, links⟩
    exact ⟨grows, fun has _ => LexiSet.shares_of_has respects placed has, links⟩

end Truthful

section Zset

variable {env : Env}

/-- The element is found in the set, or is stored there though not equal to itself. -/
def LexiSet.Member (ops : KeyOps α) (s : LexiSet α) (data : α) : Prop := setHas ops s data = true ∨ data ∈ s.items

/-- After `set_insert` the element is a member, or the set says why not. -/
theorem LexiSet.member_iff {ops : KeyOps α} {s : LexiSet α} (placed : s.Placed ops) (mem : SetMem) (data : α) :
    ((setInsert ops mem s data).1 ≠ .oom → (setInsert ops mem s data).2.Member ops data) ↔ s.Links ops mem data := by
  rcases setInsert_cases placed mem data with ⟨none_, result⟩ | ⟨t, found, outcome⟩
  · refine iff_of_true (fun other => absurd ?_ other) (fun grows => absurd grows (LexiSet.searched_eq_none.mp none_))
    rw [result]
  · obtain ⟨kept, perm, _⟩ := LexiSet.searched_spec placed found
    have grows := LexiSet.grows_of_searched found
    have links : s.Links ops mem data ↔ (t.bucket ops data = [] → mem.entry = true) := by
      rw [LexiSet.bucket_eq_nil placed found]
      exact forall_prop_of_true grows
    rw [links]
    rcases outcome with ⟨has, result⟩ | ⟨_, entry, after, result, _, added⟩ | ⟨lacks, entry, result⟩
    · refine iff_of_true (fun _ => ?_) (fun none_ => ?_)
      · rw [result]
        exact .inl has
      · obtain ⟨stored, member, _⟩ := setHas_iff.mp has
        rw [none_] at member
        cases member
    · refine iff_of_true (fun _ => ?_) (fun _ => entry)
      rw [result]
      exact .inr (added.mem_iff.mpr (List.mem_cons_self ..))
    · by_cases none_ : t.bucket ops data = []
      · rw [result, if_pos none_]
        refine iff_of_false (fun told => ?_) (fun links => ?_)
        · rcases told (by simp) with has | member
          · simp only [lacks, Bool.false_eq_true] at has
          · have here := kept.mem_bucket.mpr ⟨member, rfl⟩
            rw [none_] at here
            cases here
        · rw [links none_] at entry
          cases entry
      · rw [result, if_neg none_]
        exact iff_of_true (fun other => absurd rfl other) (fun empty => absurd empty none_)

/-- A ZSET about to be executed on a set that earlier calls have made; there is room
and memory for the reply. -/
structure ZsetCall (env : Env) where
  server : Server
  client : Client
  ans : Answers
  fuel : Nat
  value : Object
  db : Lexidb
  found : server.db[client.databaseNum]? = some db
  reached : db.set.Reached (objectOps env)
  reply : ans.reply.Grants
  builder : client.builder.Valid
  room : Fits client.builder 32

/-- OK is replied only if the value is a member afterwards, and EOOM is replied otherwise. -/
def ZsetCall.Told (zset : ZsetCall env) : Prop :=
  ∃ server client db, dispatch env zset.ans zset.fuel zset.server zset.client (.zset zset.value) = .ok (server, client) ∧
    server.db[zset.client.databaseNum]? = some db ∧
    (Appended zset.client.builder (cstr "+OK\r\n") client.builder → db.set.Member (objectOps env) zset.value) ∧
    (¬Appended zset.client.builder (cstr "+OK\r\n") client.builder →
      Appended zset.client.builder (simpleErrTypeByte :: errOom ++ crlf) client.builder)

theorem ZsetCall.told_iff (zset : ZsetCall env) : zset.Told ↔ zset.db.set.Links (objectOps env) zset.ans.set zset.value := by
  rw [← LexiSet.member_iff zset.reached.placed]
  generalize inserted : setInsert (objectOps env) zset.ans.set zset.db.set zset.value = result
  let left : Server := { zset.server with db := zset.server.db.set zset.client.databaseNum { zset.db with set := result.2 } }
  let answered := replyOk zset.ans left zset.client (result.1 ≠ .oom) errOom
  have dispatched : dispatch env zset.ans zset.fuel zset.server zset.client (.zset zset.value) = .ok answered := by
    simp only [dispatch, executeZsetCommand, onDb_found zset.found, inserted, ok_bind, pure_eq_ok]
    rfl
  have stored : answered.1.db[zset.client.databaseNum]? = some { zset.db with set := result.2 } := by
    simp only [answered, replyOk_db]
    exact set_db_getElem zset.found _
  have ok : Appended zset.client.builder (cstr "+OK\r\n") answered.2.builder ↔ result.1 ≠ .oom := by
    rw [replyOk_appends zset.reply zset.builder zset.room _ (by decide), decide_eq_true_eq]
  have oom (refused : result.1 = .oom) : Appended zset.client.builder (simpleErrTypeByte :: errOom ++ crlf) answered.2.builder := by
    simp only [answered, refused, replyOk, ne_eq, not_true_eq_false, decide_false, Bool.false_eq_true, ↓reduceIte]
    have short : errOom.length ≤ 29 := by decide
    exact addErr_appends zset.reply zset.builder zset.room short
  constructor
  · rintro ⟨server, client, db, same, found, member, _⟩ accepted
    have same : answered = (server, client) := Except.ok.inj (dispatched.symm.trans same)
    rw [same] at stored ok
    cases stored.symm.trans found
    exact member (ok.mpr accepted)
  · intro member
    refine ⟨_, _, _, dispatched, stored, fun accepted => member (ok.mp accepted), fun refused => oom ?_⟩
    exact not_not.mp fun accepted => refused (ok.mpr accepted)

end Zset

/-- `set_insert` tells the truth about what it did exactly under these conditions, and
ZSET replies OK to a value it has lost exactly if an empty chain got no entry. -/
theorem setInsert_truthful_iff {ops : KeyOps α} {s : LexiSet α} (reached : s.Reached ops) (mem : SetMem) (data : α) (zset : ZsetCall env) :
    (s.Truthful ops mem data ↔ s.Reports ops mem data) ∧
      (zset.Told ↔ zset.db.set.Links (objectOps env) zset.ans.set zset.value) :=
  ⟨LexiSet.truthful_iff reached.placed mem data, zset.told_iff⟩

private def failing : Answers := { Answers.granted (fun _ _ => 0) 0 with set := ⟨false, false⟩ }

/-- A ZSET of a number to the empty set of a fresh server. -/
private def zsetFirst (ans : Answers) (reply : ans.reply.Grants) : ZsetCall .sample where
  server := oneDatabase
  client := sender []
  ans := ans
  fuel := 0
  value := .int 7
  db := ⟨htNew [] 0, setNew [], queueNew, vecNew 0⟩
  found := rfl
  reached := ⟨[], [], rfl⟩
  reply := reply
  builder := vstrNew_valid
  room := by
    simp only [sender, builderNew, Fits, vstrNew_bytes, vstrMaxLargeSize]
    decide

/-- A second element finds no entry in a chain that has one, and a first one finds it. -/
theorem setInsert_truthful_iff_colliding :
    let ops : KeyOps (List UInt8) := ⟨fun _ _ => 7, id, none⟩
    let s := (answers (LexiSet.step ops) (setNew []) [(⟨true, true⟩, .insert (cstr "a"))]).2
    s.Truthful ops ⟨false, false⟩ (cstr "b") ∧ (setInsert ops ⟨false, false⟩ s (cstr "b")).1 = .oom ∧
      (zsetFirst (.granted (fun _ _ => 0) 0) (Mem.granted_grants 0)).Told := by
  intro ops s
  have reached : s.Reached ops := ⟨[], _, rfl⟩
  obtain ⟨truthful, told⟩ := setInsert_truthful_iff reached ⟨false, false⟩ (cstr "b")
    (zsetFirst (.granted (fun _ _ => 0) 0) (Mem.granted_grants 0))
  have lacks : setHas ops s (cstr "b") = false := rfl
  refine ⟨truthful.mpr ⟨by simp [lacks], by simp [lacks], fun _ lonely => ?_⟩, rfl, told.mpr fun _ _ => rfl⟩
  exact absurd rfl (lonely (cstr "a") (by decide))

/-- The first element of a chain finds no entry: the answer is -1, which ZSET takes for
a success. -/
theorem setInsert_truthful_counterexample :
    ¬(setNew [] : LexiSet Object).Truthful (objectOps .sample) ⟨false, false⟩ (.int 7) ∧
      ¬(zsetFirst failing (Mem.granted_grants 0)).Told := by
  constructor
  · exact LexiSet.not_truthful_failed (.refl _) rfl
  · intro told
    have granted : failing.set.entry = true := by
      refine (ZsetCall.told_iff _).mp told (fun full => absurd full (by decide)) fun stored member => ?_
      change stored ∈ (setNew [] : LexiSet Object).items at member
      rw [setNew_items] at member
      cases member
    cases granted

end LexiDB
