import LexiDB.ConfigLines
import LexiDB.ConfigInvariant
import LexiDB.ObjectCompare

/-! Who can log in: from the users of the configuration file to what AUTH answers. -/

namespace LexiDB

open Lib

/-- The digits `hash_password` makes of a digest. -/
def hexOf (digest : List UInt8) : List UInt8 :=
  digest.flatMap fun (byte : UInt8) => [hexDigit ((byte &&& 0xF0) >>> 4), hexDigit (byte &&& 0xF)]

/-- The arguments name a configured user and its password, up to the digest. -/
def Credentials (env : Env) (users : List User) (username password : Object) : Prop :=
  ∃ name secret, username = .string name ∧ password = .string secret ∧
    ∃ user ∈ users, user.name.bytes = name.bytes ∧ env.sha256 secret.bytes = env.sha256 user.password.bytes

/-- What AUTH has to do: answer 0 for credentials and nothing else, log the client
in as the user who has them, and leave every other client as it is. -/
structure AuthRight (env : Env) (mem : Mem) (s : Server) (users : List User) (c : Client) (username password : Object) : Prop where
  answers : (executeAuthCommand env mem s c username password).1 = 0 ↔ Credentials env users username password
  succeeds : (executeAuthCommand env mem s c username password).1 = 0 →
    ∃ name secret, username = .string name ∧ password = .string secret ∧
      ∃ kept ∈ s.users.elems, kept.name.bytes = name.bytes ∧ kept.password.bytes = hexOf (env.sha256 secret.bytes) ∧
        (executeAuthCommand env mem s c username password).2 = { c with user := kept, flags := c.flags ||| authenticated }
  fails : (executeAuthCommand env mem s c username password).1 ≠ 0 → (executeAuthCommand env mem s c username password).2 = c

/-- Users of one name have passwords of one digest. -/
def Unambiguous (env : Env) (users : List User) : Prop :=
  ∀ user ∈ users, ∀ other ∈ users, user.name.bytes = other.name.bytes →
    env.sha256 user.password.bytes = env.sha256 other.password.bytes

section Hash

/-- The index of a digit, which is what it was made of. -/
private def nibble (digit : UInt8) : Nat := (cstr "0123456789abcdef").idxOf digit

private theorem nibble_digits : ∀ n < 256,
    nibble (hexDigit ((UInt8.ofNat n &&& 0xF0) >>> 4)) * 16 + nibble (hexDigit (UInt8.ofNat n &&& 0xF)) = n := by
  decide +kernel

private theorem hexDigits_injective {a b : UInt8} (high : hexDigit ((a &&& 0xF0) >>> 4) = hexDigit ((b &&& 0xF0) >>> 4))
    (low : hexDigit (a &&& 0xF) = hexDigit (b &&& 0xF)) : a = b := by
  have first := nibble_digits a.toNat a.toNat_lt
  have second := nibble_digits b.toNat b.toNat_lt
  simp only [UInt8.ofNat_toNat] at first second
  apply UInt8.toNat.inj
  rw [← first, ← second, high, low]

@[simp] private theorem hexOf_length (digest : List UInt8) : (hexOf digest).length = 2 * digest.length := by
  simp [hexOf, List.length_flatMap, Nat.mul_comm]

private theorem hexOf_injective {a b : List UInt8} (same : hexOf a = hexOf b) : a = b := by
  induction a generalizing b with
  | nil =>
    cases b with
    | nil => rfl
    | cons => simp [hexOf] at same
  | cons x a ih =>
    cases b with
    | nil => simp [hexOf] at same
    | cons y b =>
      simp only [hexOf, List.flatMap_cons, List.cons_append, List.nil_append, List.cons.injEq] at same
      rw [hexDigits_injective same.1 same.2.1, ih same.2.2]

theorem hashPassword_spec {env : Env} (grants : mem.Grants) (size : (env.sha256 p).length = 32) :
    (hashPassword env mem p).Valid ∧ (hashPassword env mem p).bytes = hexOf (env.sha256 p) := by
  obtain ⟨address, found⟩ := Option.isSome_iff_exists.mp grants.1
  have length : (hexOf (env.sha256 p)).length = 64 := by simp [size]
  have made : hashPassword env mem p = ⟨.lg ⟨address, hexOf (env.sha256 p) ++ [0], 65, 64⟩, 0⟩ := by
    have whole : (hexOf (env.sha256 p)).take 64 = hexOf (env.sha256 p) := List.take_of_length_le (by omega)
    change vstrFromLen mem (hexOf (env.sha256 p)) 64 = _
    simp [vstrFromLen, vstrMakeLgLen, vstrMaxSmallSize, vstrMaxLargeSize, found, whole]
  rw [made]
  refine ⟨?_, ?_⟩
  · simp [Vstr.Valid, length, vstrMaxLargeSize]
  · rw [Vstr.bytes_lg]
    exact List.take_left' length

private theorem foldl_differences (pairs : List (UInt8 × UInt8)) (acc : UInt8) :
    pairs.foldl (fun res pair => res ||| (pair.1 ^^^ pair.2)) acc = 0 ↔ acc = 0 ∧ ∀ pair ∈ pairs, pair.1 = pair.2 := by
  induction pairs generalizing acc with
  | nil => simp
  | cons pair pairs ih => simp [ih, UInt8.or_eq_zero_iff, and_assoc]

/-- The comparison is exact on as many bytes as it looks at. -/
private theorem timeSafeCompare_eq_zero {a b : List UInt8} (left : len ≤ a.length) (right : len ≤ b.length) :
    timeSafeCompare a b len = 0 ↔ a.take len = b.take len := by
  have zero : ∀ x : UInt8, x.toInt8.toInt = 0 ↔ x = 0 := by
    intro x
    constructor
    · intro none_
      have same : x.toInt8 = 0 := Int8.toInt.inj (by simpa using none_)
      change x = Int8.toUInt8 0
      simpa using congrArg Int8.toUInt8 same
    · rintro rfl
      rfl
  have cut : (a.zip b).take len = (a.take len).zip (b.take len) := by
    simp only [List.zip_eq_zipWith, List.take_zipWith]
  have long : (a.take len).length = (b.take len).length := by
    simp only [List.length_take]
    omega
  rw [timeSafeCompare, zero, foldl_differences, cut, ← List.forall₂_eq_eq_eq, List.forall₂_iff_zip]
  simp [long]

end Hash

section Auth

variable {env : Env} {mem : Mem} {s : Server}

/-- A name without NUL is only equal to itself. -/
theorem vstrCmp_name {a b : Vstr} (left : a.Valid) (right : b.Valid) (free : 0 ∉ b.bytes) :
    vstrCmp a b = 0 ↔ a.bytes = b.bytes := by
  rw [vstrCmp_eq_zero left right, untilNul_of_free free]
  constructor
  · rintro ⟨length, same⟩
    have front : untilNul a.bytes <+: a.bytes := List.takeWhile_prefix _
    rw [same] at front
    exact (front.eq_of_length length.symm).symm
  · intro same
    rw [same]
    exact ⟨rfl, untilNul_of_free free⟩

/-- A user with the password replaced by the digits of its digest. -/
def User.hashed (env : Env) (mem : Mem) (user : User) : User :=
  { user with password := hashPassword env mem user.password.bytes }

/-- The server keeps the users of the configuration, in their order. -/
structure Server.Keeps (env : Env) (mem : Nat → Mem) (s : Server) (users : List User) : Prop where
  valid : s.users.Valid
  named : ∀ user ∈ users, user.Named
  granted : ∀ i, (mem i).Grants
  elems : s.users.elems = users.mapIdx fun i user => user.hashed env (mem i)

/-- What AUTH makes of the first user of that name. -/
private theorem executeAuthCommand_found {addMem : Nat → Mem} {users : List User} (keeps : s.Keeps env addMem users) (grants : mem.Grants)
    (digests : ∀ text, (env.sha256 text).length = 32) {name : Vstr} (password : Vstr) {user : User} (c : Client)
    (found : vecFind s.users (fun user => decide (vstrCmp name user.name = 0)) = some (i, user.hashed env (addMem i))) :
    (env.sha256 password.bytes = env.sha256 user.password.bytes ∧
        executeAuthCommand env mem s c (.string name) (.string password) =
          (0, { c with user := user.hashed env (addMem i), flags := c.flags ||| authenticated })) ∨
      (env.sha256 password.bytes ≠ env.sha256 user.password.bytes ∧
        ∃ cmp, cmp ≠ 0 ∧ executeAuthCommand env mem s c (.string name) (.string password) = (cmp, c)) := by
  obtain ⟨leftValid, left⟩ := hashPassword_spec grants (digests password.bytes)
  obtain ⟨rightValid, right⟩ := hashPassword_spec (keeps.granted i) (digests user.password.bytes)
  have same : vstrLen (hashPassword env (addMem i) user.password.bytes) = vstrLen (hashPassword env mem password.bytes) := by
    rw [← leftValid.length, ← rightValid.length, left, right]
    simp [digests]
  have exact_ : timeSafeCompare (vstrData (hashPassword env mem password.bytes))
      (vstrData (hashPassword env (addMem i) user.password.bytes)) (vstrLen (hashPassword env mem password.bytes)) = 0 ↔
      env.sha256 password.bytes = env.sha256 user.password.bytes := by
    rw [timeSafeCompare_eq_zero leftValid.data_long (same ▸ rightValid.data_long)]
    nth_rewrite 2 [← same]
    change (hashPassword env mem password.bytes).bytes = (hashPassword env (addMem i) user.password.bytes).bytes ↔ _
    rw [left, right]
    exact ⟨hexOf_injective, fun same => by rw [same]⟩
  by_cases matches_ : env.sha256 password.bytes = env.sha256 user.password.bytes
  · left
    refine ⟨matches_, ?_⟩
    simp only [executeAuthCommand, found, User.hashed, exact_.mpr matches_, ↓reduceIte]
  · right
    have differs := mt exact_.mp matches_
    refine ⟨matches_, _, differs, ?_⟩
    simp only [executeAuthCommand, found, User.hashed, if_neg differs]

/-- Which user AUTH finds: the first of that name, if there is one. -/
private theorem Server.Keeps.find {addMem : Nat → Mem} {users : List User} (keeps : s.Keeps env addMem users) {name : Vstr}
    (valid : name.Valid) :
    (vecFind s.users (fun user => decide (vstrCmp name user.name = 0)) = none ∧ ∀ user ∈ users, user.name.bytes ≠ name.bytes) ∨
      ∃ i user, vecFind s.users (fun user => decide (vstrCmp name user.name = 0)) = some (i, user.hashed env (addMem i)) ∧
        users[i]? = some user ∧ user.name.bytes = name.bytes ∧
        ∀ j < i, ∀ other, users[j]? = some other → other.name.bytes ≠ name.bytes := by
  have decides : ∀ user ∈ users, (decide (vstrCmp name user.name = 0) = true ↔ user.name.bytes = name.bytes) := by
    intro user member
    have named := keeps.named user member
    rw [decide_eq_true_eq, vstrCmp_name valid named.name named.free, eq_comm]
  cases found : vecFind s.users fun user => decide (vstrCmp name user.name = 0) with
  | none =>
    refine .inl ⟨rfl, fun user member same => ?_⟩
    obtain ⟨i, inside, rfl⟩ := List.getElem_of_mem member
    have kept : users[i].hashed env (addMem i) ∈ s.users.elems := by
      rw [keeps.elems]
      exact List.mem_iff_getElem.mpr ⟨i, by simpa using inside, by simp⟩
    have missing := vecFind_eq_none keeps.valid found _ kept
    have known := (decides _ member).mpr same
    exact of_decide_eq_false missing (of_decide_eq_true known)
  | some result =>
    obtain ⟨i, kept⟩ := result
    obtain ⟨here, equal, first⟩ := vecFind_eq_some keeps.valid found
    rw [keeps.elems, List.getElem?_mapIdx] at here
    obtain ⟨user, listed, rfl⟩ := Option.map_eq_some_iff.mp here
    refine .inr ⟨i, user, rfl, listed, (decides user (List.mem_of_getElem? listed)).mp equal, fun j earlier other stood same => ?_⟩
    have kept : s.users.elems[j]? = some (other.hashed env (addMem j)) := by
      rw [keeps.elems, List.getElem?_mapIdx, stood]
      rfl
    exact of_decide_eq_false (first j earlier _ kept) (of_decide_eq_true ((decides other (List.mem_of_getElem? stood)).mpr same))

/-- A client that has just been accepted. -/
private def fresh : Client := ⟨0, 0, 0, 0, [], 0, 0, [], 0, 0, builderNew, .zero, 0⟩

/-- A refusal leaves the client as it was, and is right for who has no credentials. -/
private theorem AuthRight.of_refused {users : List User} {c : Client} {username password : Object} {cmp : Int} (differs : cmp ≠ 0)
    (done : executeAuthCommand env mem s c username password = (cmp, c)) (none_ : ¬Credentials env users username password) :
    AuthRight env mem s users c username password := by
  refine ⟨?_, ?_, ?_⟩
  · rw [done]
    exact ⟨fun zero => absurd zero differs, fun known => absurd known none_⟩
  · rw [done]
    exact fun zero => absurd zero differs
  · rw [done]
    exact fun _ => rfl

/-- Where AUTH is right for every client, whoever has the name of a user has the digest of
the first one of that name. -/
private theorem Server.Keeps.first_digest {addMem : Nat → Mem} {users : List User} (keeps : s.Keeps env addMem users)
    (grants : mem.Grants) (digests : ∀ text, (env.sha256 text).length = 32)
    (right : ∀ (c : Client) (username password : Object), username.StringValid → password.StringValid →
      AuthRight env mem s users c username password) {user : User} (member : user ∈ users) :
    ∃ first : User, ∀ x ∈ users, x.name.bytes = user.name.bytes →
      env.sha256 x.password.bytes = env.sha256 first.password.bytes := by
  have named := keeps.named user member
  rcases keeps.find named.name with ⟨_, missing⟩ | ⟨i, first, found, _, _, _⟩
  · exact absurd rfl (missing user member)
  · refine ⟨first, fun x listed alike => ?_⟩
    have answered := (right fresh (.string user.name) (.string x.password) named.name (keeps.named x listed).password).answers.mpr
      ⟨_, _, rfl, rfl, x, listed, alike, rfl⟩
    rcases executeAuthCommand_found keeps grants digests x.password fresh found with
      ⟨matches_, _⟩ | ⟨_, cmp, differs, done⟩
    · exact matches_
    · rw [done] at answered
      exact absurd answered differs

/-- A server that keeps these users answers AUTH rightly, unless two users of one
name have different passwords. -/
theorem Server.Keeps.rightEverywhere_iff {addMem : Nat → Mem} {users : List User} (keeps : s.Keeps env addMem users) (grants : mem.Grants)
    (digests : ∀ text, (env.sha256 text).length = 32) :
    (∀ (c : Client) (username password : Object), username.StringValid → password.StringValid →
      AuthRight env mem s users c username password) ↔ Unambiguous env users := by
  constructor
  · intro right user member other otherMember same
    -- both passwords log in, and both were compared with the first user of the name
    obtain ⟨first, digest⟩ := keeps.first_digest grants digests right member
    rw [digest user member rfl, digest other otherMember same.symm]
  · intro unambiguous c username password userValid passwordValid
    cases username with
    | string name =>
      cases password with
      | string secret =>
        rcases keeps.find userValid with ⟨found, missing⟩ | ⟨i, first, found, listed, same, _⟩
        · refine .of_refused (show (-1 : Int) ≠ 0 by decide) (by simp only [executeAuthCommand, found]) ?_
          rintro ⟨_, _, ⟨⟩, ⟨⟩, user, member, alike, _⟩
          exact missing user member alike
        · rcases executeAuthCommand_found keeps grants digests secret c found with
            ⟨matches_, done⟩ | ⟨differs, cmp, nonzero, done⟩
          · have kept : first.hashed env (addMem i) ∈ s.users.elems := (vecFind_eq_some keeps.valid found).1 |> List.mem_of_getElem?
            have digest := (hashPassword_spec (keeps.granted i) (digests first.password.bytes)).2
            refine ⟨?_, ?_, ?_⟩
            · rw [done]
              exact ⟨fun _ => ⟨_, _, rfl, rfl, first, List.mem_of_getElem? listed, same, matches_⟩, fun _ => rfl⟩
            · rw [done]
              exact fun _ => ⟨_, _, rfl, rfl, _, kept, same, by rw [matches_]; exact digest, rfl⟩
            · rw [done]
              exact fun nonzero => absurd rfl nonzero
          · refine .of_refused nonzero done ?_
            rintro ⟨_, _, ⟨⟩, ⟨⟩, user, member, alike, digest⟩
            apply differs
            rw [digest]
            exact unambiguous user member first (List.mem_of_getElem? listed) (alike.trans same.symm)
      | _ =>
        refine .of_refused (show (-1 : Int) ≠ 0 by decide) rfl ?_
        rintro ⟨_, _, _, ⟨⟩, _⟩
    | _ =>
      refine .of_refused (show (-1 : Int) ≠ 0 by decide) rfl ?_
      rintro ⟨_, _, ⟨⟩, _⟩

end Auth

section Add

variable {env : Env} {mem : Nat → Mem} {conf : Vec User}

/-- The loop of `add_users` before its round for the user at `i`. -/
structure Adding (env : Env) (mem : Nat → Mem) (conf : Vec User) (i : Nat) (iter : VecIter) (users left : Vec User) : Prop where
  at_ : iter.At conf.len i
  valid : users.Valid
  elems : users.elems = (conf.elems.take i).mapIdx fun i user => user.hashed env (mem i)
  slots : left.slots.drop i = conf.slots.drop i

/-- One round: a user that is found ends the loop, any other is pushed. -/
theorem addUsersLoop_round (granted : ∀ i, (mem i).Grants) (valid : conf.Valid) (bound : conf.len + 2 < sizeMod)
    (adding : Adding env mem conf i iter users left) (inside : i < conf.len) :
    ∃ user after others, conf.elems[i]? = some user ∧ Adding env mem conf (i + 1) (vecIterNext iter) after others ∧
      ∀ fuel, addUsersLoop env mem (fuel + 1) iter users left =
        if addUsersContains users user ≠ -1 then .ok (-1, users, left)
        else addUsersLoop env mem fuel (vecIterNext iter) after others := by
  have room : i < conf.slots.length := by
    have size := valid.size
    have most := valid.room
    omega
  have here : conf.elems[i]? = some conf.slots[i] := by
    rw [Vec.elems, List.getElem?_take_of_lt inside, List.getElem?_eq_getElem room]
  have slot : left.slots[i]? = some conf.slots[i] := by
    have head := congrArg (fun slots => slots[0]?) adding.slots
    simpa [room] using head
  obtain ⟨after, pushed, kept, content⟩ :=
    vecPush_spec adding.valid (fun _ => (granted i).2) (conf.slots[i].hashed env (mem i))
  refine ⟨conf.slots[i], after, { left with slots := left.slots.set i (conf.slots[i].hashed env (mem i)) }, here,
    ⟨vecIterNext_at adding.at_ inside bound, kept, ?_, ?_⟩, ?_⟩
  · have taken : conf.elems.take (i + 1) = conf.elems.take i ++ [conf.slots[i]] := by
      rw [List.take_add_one, here]
      rfl
    have count : (conf.elems.take i).length = i := by
      rw [List.length_take, valid.length]
      omega
    rw [content, adding.elems, taken, List.mapIdx_append, count]
    simp
  · simp only [List.drop_set_of_lt (Nat.lt_succ_self i)]
    have next := congrArg List.tail adding.slots
    simpa using next
  · intro fuel
    have current : iter.cur = some i := by
      rw [adding.at_.2.2.1, if_pos inside]
    have added : vecPush (mem i).realloc users { conf.slots[i] with
        password := hashPassword env (mem i) conf.slots[i].password.bytes } = (0, after) := pushed
    simp only [addUsersLoop, current, slot, added]
    rfl

/-- The users already added are those in front, hashed. -/
private theorem Adding.before (adding : Adding env mem conf i iter users left) (earlier : k < i) (listed : conf.elems[k]? = some other) :
    users.elems[k]? = some (other.hashed env (mem k)) := by
  rw [adding.elems, List.getElem?_mapIdx, List.getElem?_take_of_lt earlier, listed]
  rfl

/-- A name that was there before goes unnoticed only where its index is -1 as an
`int`. -/
private theorem Adding.missed (adding : Adding env mem conf i iter users left) (named : ∀ user ∈ conf.elems, user.Named)
    (here : conf.elems[i]? = some user) (earlier : k < i) (listed : conf.elems[k]? = some other)
    (same : other.name.bytes = user.name.bytes) (clear : addUsersContains users user = -1) :
    ∃ first ≤ k, Int32.ofNat first = -1 := by
  have userNamed := named user (List.mem_of_getElem? here)
  have otherNamed := named other (List.mem_of_getElem? listed)
  have equal : vstrCmp user.name other.name = 0 := (vstrCmp_name userNamed.name otherNamed.name otherNamed.free).mpr same.symm
  have kept := adding.before earlier listed
  unfold addUsersContains at clear
  cases found : vecFind users fun other => decide (vstrCmp user.name other.name = 0) with
  | none =>
    have differs := vecFind_eq_none adding.valid found _ (List.mem_of_getElem? kept)
    exact absurd equal (of_decide_eq_false differs)
  | some result =>
    obtain ⟨first, elem⟩ := result
    simp only [found] at clear
    refine ⟨first, ?_, clear⟩
    by_contra later
    have differs := (vecFind_eq_some adding.valid found).2.2 k (by omega) _ kept
    exact absurd equal (of_decide_eq_false differs)

/-- A name that only stands at indices that are -1 as an `int` is taken for a new
one. -/
private theorem Adding.clear (adding : Adding env mem conf i iter users left) (named : ∀ user ∈ conf.elems, user.Named)
    (here : conf.elems[i]? = some user)
    (hidden : ∀ k < i, ∀ other, conf.elems[k]? = some other → other.name.bytes = user.name.bytes → Int32.ofNat k = -1) :
    addUsersContains users user = -1 := by
  unfold addUsersContains
  cases found : vecFind users fun other => decide (vstrCmp user.name other.name = 0) with
  | none => rfl
  | some result =>
    obtain ⟨first, elem⟩ := result
    obtain ⟨kept, equal, _⟩ := vecFind_eq_some adding.valid found
    rw [adding.elems, List.getElem?_mapIdx] at kept
    obtain ⟨other, listed, rfl⟩ := Option.map_eq_some_iff.mp kept
    rw [List.getElem?_take] at listed
    split at listed
    · rename_i earlier
      have userNamed := named user (List.mem_of_getElem? here)
      have otherNamed := named other (List.mem_of_getElem? listed)
      have same := (vstrCmp_name userNamed.name otherNamed.name otherNamed.free).mp (of_decide_eq_true equal)
      exact hidden first earlier other listed same.symm
    · cases listed

/-- A loop that ends well has pushed every user, and has passed over no repeated
name but those. -/
private theorem addUsersLoop_keeps (granted : ∀ i, (mem i).Grants) (valid : conf.Valid) (bound : conf.len + 2 < sizeMod)
    (named : ∀ user ∈ conf.elems, user.Named) (fuel : Nat) :
    ∀ i iter users left final last, i ≤ conf.len → Adding env mem conf i iter users left →
      addUsersLoop env mem fuel iter users left = .ok (0, final, last) →
      final.Valid ∧ (final.elems = conf.elems.mapIdx fun i user => user.hashed env (mem i)) ∧
        ∀ j k user other, i ≤ j → k < j → conf.elems[j]? = some user → conf.elems[k]? = some other →
          other.name.bytes = user.name.bytes → ∃ first ≤ k, Int32.ofNat first = -1 := by
  induction fuel with
  | zero =>
    intro i iter users left final last _ _ done
    cases done
  | succ fuel ih =>
    intro i iter users left final last within adding done
    by_cases inside : i < conf.len
    · obtain ⟨user, after, others, here, next, round⟩ := addUsersLoop_round granted valid bound adding inside
      rw [round] at done
      split at done
      · cases done
      · rename_i clear
        obtain ⟨kept, content, later⟩ := ih _ _ _ _ _ _ inside next done
        refine ⟨kept, content, ?_⟩
        intro j k other old from_ earlier listed stood same
        by_cases now : j = i
        · subst now
          rw [here] at listed
          cases listed
          exact adding.missed named here earlier stood same (not_not.mp clear)
        · exact later j k other old (by omega) earlier listed stood same
    · have all : i = conf.len := by omega
      have ended : iter.cur = none := by rw [adding.at_.2.2.1, if_neg inside]
      simp only [addUsersLoop, ended] at done
      cases done
      refine ⟨adding.valid, ?_, ?_⟩
      · rw [adding.elems, all, ← valid.length, List.take_length]
      · intro j k other old from_ earlier listed
        have outside := (List.getElem?_eq_some_iff.mp listed).1
        rw [valid.length] at outside
        omega

/-- The loop ends well where every repeated name is passed over. -/
theorem addUsersLoop_accepts (granted : ∀ i, (mem i).Grants) (valid : conf.Valid) (bound : conf.len + 2 < sizeMod)
    (named : ∀ user ∈ conf.elems, user.Named)
    (hidden : ∀ j k user other, k < j → conf.elems[j]? = some user → conf.elems[k]? = some other →
      other.name.bytes = user.name.bytes → Int32.ofNat k = -1) (fuel : Nat) :
    ∀ i iter users left, i ≤ conf.len → conf.len < i + fuel → Adding env mem conf i iter users left →
      ∃ final last, addUsersLoop env mem fuel iter users left = .ok (0, final, last) := by
  induction fuel with
  | zero =>
    intro i iter users left within enough
    omega
  | succ fuel ih =>
    intro i iter users left within enough adding
    by_cases inside : i < conf.len
    · obtain ⟨user, after, others, here, next, round⟩ := addUsersLoop_round granted valid bound adding inside
      have clear := adding.clear named here fun k earlier other listed same => hidden i k user other earlier here listed same
      obtain ⟨final, last, done⟩ := ih _ _ _ _ inside (by omega) next
      refine ⟨final, last, ?_⟩
      rw [round, if_neg (not_not.mpr clear), done]
    · have ended : iter.cur = none := by rw [adding.at_.2.2.1, if_neg inside]
      exact ⟨users, left, by simp only [addUsersLoop, ended]⟩

theorem adding_start (env : Env) (mem : Nat → Mem) (some_ : 0 < conf.len) (bound : conf.len + 2 < sizeMod) (address : Nat) :
    Adding env mem conf 0 (vecIterNew conf) (vecNew address) conf :=
  ⟨vecIterNew_at some_ (by omega), vecNew_valid address, rfl, rfl⟩

/-- Users that are accepted are kept, and a name is repeated only behind index
2^32 - 1. -/
theorem addUsers_keeps {s : Server} (granted : ∀ i, (mem i).Grants) (valid : conf.Valid) (some_ : 0 < conf.len) (bound : conf.len + 2 < sizeMod)
    (named : ∀ user ∈ conf.elems, user.Named) (done : addUsers env mem fuel (vecNew address) conf = .ok (0, s.users, last)) :
    s.Keeps env mem conf.elems ∧
      ∀ j k user other, k < j → conf.elems[j]? = some user → conf.elems[k]? = some other →
        other.name.bytes = user.name.bytes → 2 ^ 32 ≤ j := by
  obtain ⟨kept, content, missed⟩ := addUsersLoop_keeps granted valid bound named fuel 0 _ _ _ _ _ (Nat.zero_le _)
    (adding_start env mem some_ bound address) done
  refine ⟨⟨kept, named, granted, content⟩, ?_⟩
  intro j k user other earlier listed stood same
  obtain ⟨first, before, minus⟩ := missed j k user other (Nat.zero_le _) earlier listed stood same
  have bits : first % 2 ^ 32 = 2 ^ 32 - 1 := by
    have narrow := congrArg (fun index : Int32 => index.toBitVec.toNat) minus
    simpa using narrow
  omega

/-- No name is repeated among the first 2^32 users that are accepted. -/
theorem unambiguous_of_few {supply : Supply} {s : Server} (supplies : supply.Grants)
    (accepted : parseConfig supply fuel input = .ok (.ok config)) (some_ : 0 < config.users.len)
    (short : input.length + 2 < sizeMod) (granted : ∀ i, (mem i).Grants)
    (added : addUsers env mem rounds (vecNew address) config.users = .ok (0, s.users, last)) (few : config.users.len ≤ 2 ^ 32) :
    Unambiguous env config.users.elems := by
  obtain ⟨sound, count⟩ := parseConfig_sound supplies accepted
  obtain ⟨_, repeated⟩ := addUsers_keeps granted sound.valid some_ (by omega) sound.named added
  intro user member other otherMember same
  obtain ⟨j, inside, rfl⟩ := List.getElem_of_mem member
  obtain ⟨k, insideToo, rfl⟩ := List.getElem_of_mem otherMember
  have listed := List.getElem?_eq_getElem inside
  have stood := List.getElem?_eq_getElem insideToo
  rw [sound.valid.length] at inside insideToo
  rcases Nat.lt_trichotomy j k with before | rfl | behind
  · have large := repeated k j _ _ before stood listed same
    omega
  · rfl
  · have large := repeated j k _ _ behind listed stood same.symm
    omega

/-- For every configuration that is accepted, AUTH does what it has to do for every
client and all arguments exactly where no two users of one name have passwords of
different digests. -/
theorem authRight_iff {supply : Supply} {s : Server} {hash : Mem} (supplies : supply.Grants)
    (accepted : parseConfig supply fuel input = .ok (.ok config)) (some_ : 0 < config.users.len)
    (short : input.length + 2 < sizeMod) (granted : ∀ i, (mem i).Grants)
    (added : addUsers env mem rounds (vecNew address) config.users = .ok (0, s.users, last)) (grants : hash.Grants)
    (digests : ∀ text, (env.sha256 text).length = 32) :
    (∀ (c : Client) (username password : Object), username.StringValid → password.StringValid →
      AuthRight env hash s config.users.elems c username password) ↔ Unambiguous env config.users.elems := by
  obtain ⟨sound, count⟩ := parseConfig_sound supplies accepted
  obtain ⟨keeps, _⟩ := addUsers_keeps granted sound.valid some_ (by omega) sound.named added
  exact keeps.rightEverywhere_iff grants digests

end Add

section Files

variable {env : Env} {mem : Nat → Mem}

private theorem forall₂_getElem? {R : α → β → Prop} {l : List α} {m : List β} (each : List.Forall₂ R l m) :
    ∀ (i : Nat) (b : β), m[i]? = some b → ∃ a, l[i]? = some a ∧ R a b := by
  induction each with
  | nil =>
    intro i b listed
    cases listed
  | cons head _ ih =>
    intro i b listed
    cases i with
    | zero =>
      cases listed
      exact ⟨_, rfl, head⟩
    | succ i => exact ih i b listed

/-- What becomes of a file that lists these users, repeating a name only where the
index of the first is -1 as an `int`. -/
private theorem userFile_accepted (env : Env) {supply : Supply} (supplies : supply.Grants) (granted : ∀ i, (mem i).Grants)
    {all : List (List UInt8 × List UInt8)} (writable : ∀ one ∈ all, Writable one) (some_ : all ≠ []) (few : all.length + 2 < sizeMod)
    (hidden : ∀ j k one other, k < j → all[j]? = some one → all[k]? = some other → other.1 = one.1 → Int32.ofNat k = -1) :
    ∃ fuel config rounds users last, parseConfig supply fuel (userFile all) = .ok (.ok config) ∧ 0 < config.users.len ∧
      addUsers env mem rounds (vecNew 1) config.users = .ok (0, users, last) ∧ config.users.Valid ∧
      (∀ user ∈ config.users.elems, user.Named) ∧
      List.Forall₂ (fun (one : List UInt8 × List UInt8) (user : User) => user.IsOf one) all config.users.elems := by
  obtain ⟨fuel, config, valid, each, parses⟩ := parseConfig_users supplies all writable
  have length : config.users.len = all.length := by rw [← valid.length, ← each.length_eq]
  have positive : 0 < config.users.len := by
    rw [length]
    exact List.length_pos_iff.mpr some_
  have named : ∀ user ∈ config.users.elems, user.Named := by
    intro user member
    obtain ⟨i, inside, rfl⟩ := List.getElem_of_mem member
    obtain ⟨one, listed, isOf⟩ := forall₂_getElem? each i _ (List.getElem?_eq_getElem inside)
    refine ⟨isOf.name.1, ?_, isOf.password.1⟩
    intro zero
    rw [isOf.name.2] at zero
    exact absurd ((writable one (List.mem_of_getElem? listed)).name 0 zero).1 (by decide)
  obtain ⟨users, last, added⟩ := addUsersLoop_accepts granted valid (by omega) named
    (fun j k user other earlier here stood same => by
      obtain ⟨one, listed, isOf⟩ := forall₂_getElem? each j user here
      obtain ⟨old, before, wasOf⟩ := forall₂_getElem? each k other stood
      exact hidden j k one old earlier listed before (by rw [← isOf.name.2, ← wasOf.name.2, same]))
    (config.users.len + 1) 0 _ _ _ (Nat.zero_le _) (by omega) (adding_start env mem positive (by omega) 1)
  exact ⟨fuel, config, _, users, last, parses fuel (Nat.le_refl _), positive, added, valid, named, each⟩

/-- A server of which only the users matter. -/
private def serverOf (users : Vec User) : Server := ⟨0, 0, 0, [], vstrNew, vstrNew, vstrNew, 0, [], vecNew 0, users, 0, 0⟩

theorem sample_digests (text : List UInt8) : (Env.sample.sha256 text).length = 32 := by
  simp [Env.sample]

/-- The user the CLI logs in as. -/
theorem authRight_iff_root : ∃ fuel config rounds users last,
    parseConfig (.granted fun unread _ => unread) fuel (cstr "\nuser root >root") = .ok (.ok config) ∧
      addUsers .sample (fun _ => .granted 1) rounds (vecNew 1) config.users = .ok (0, users, last) ∧
      ∀ (c : Client) (username password : Object), username.StringValid → password.StringValid →
        AuthRight .sample (.granted 1) (serverOf users) config.users.elems c username password := by
  have writable : ∀ one ∈ [(cstr "root", cstr "root")], Writable one := by
    intro one member
    cases List.mem_singleton.mp member
    have plain : (cstr "root").all (fun byte => configStringByte byte && !configSpace byte) = true := by decide
    have each : ∀ byte ∈ cstr "root", configStringByte byte = true ∧ configSpace byte = false := by
      intro byte inside
      simpa using List.all_eq_true.mp plain byte inside
    exact ⟨by decide, each, fun byte inside => (each byte inside).1, by decide⟩
  have supplies := Supply.granted_grants fun unread _ => unread
  obtain ⟨fuel, config, rounds, users, last, accepted, some_, added, valid, _, each⟩ :=
    userFile_accepted .sample supplies (fun _ => Mem.granted_grants 1) writable (by simp) (by decide)
      (fun j k one other earlier here stood _ => by
        have inside := (List.getElem?_eq_some_iff.mp here).1
        simp only [List.length_singleton] at inside
        omega)
  have count : config.users.len = 1 := by rw [← valid.length, ← each.length_eq]; rfl
  have unambiguous := unambiguous_of_few (s := serverOf users) supplies accepted some_ (by decide) (fun _ => Mem.granted_grants 1)
    added (by omega)
  exact ⟨fuel, config, rounds, users, last, accepted, added,
    (authRight_iff supplies accepted some_ (by decide) (fun _ => Mem.granted_grants 1) added (Mem.granted_grants 1) sample_digests).mpr
      unambiguous⟩

/-- Users named by their index, all with one password, and the last of them once
more with another. -/
def crowd (count : Nat) : List (List UInt8 × List UInt8) :=
  (List.range count).map (fun i => (decimal i, cstr "a")) ++ [(decimal (count - 1), cstr "b")]

private theorem crowd_getElem? (listed : (crowd count)[i]? = some one) :
    (i < count ∧ one = (decimal i, cstr "a")) ∨ (i = count ∧ one = (decimal (count - 1), cstr "b")) := by
  have length : ((List.range count).map fun i => (decimal i, cstr "a")).length = count := by simp
  rw [crowd, List.getElem?_append] at listed
  split at listed
  · rename_i inside
    rw [length] at inside
    rw [List.getElem?_map, List.getElem?_range inside] at listed
    cases listed
    exact .inl ⟨inside, rfl⟩
  · rename_i outside
    rw [length] at outside listed
    have inside := (List.getElem?_eq_some_iff.mp listed).1
    simp only [List.length_singleton] at inside
    have here : i = count := by omega
    subst here
    simp only [Nat.sub_self, List.getElem?_cons_zero, Option.some.injEq] at listed
    exact .inr ⟨rfl, listed.symm⟩

private theorem decimal_injective {a b : Nat} (same : decimal a = decimal b) : a = b := by
  rw [← decimalValue_decimal a, same, decimalValue_decimal]

private theorem decimal_writable (n : Nat) (bound : n < 2 ^ 64) {password : List UInt8}
    (plain : ∀ byte ∈ password, configStringByte byte = true) (short : password.length ≤ vstrMaxLargeSize) :
    Writable (decimal n, password) := by
  have digits : ∀ byte : UInt8, isDigit byte = true → configStringByte byte = true ∧ configSpace byte = false := by
    intro byte digit
    have all : ∀ n < 256, isDigit (UInt8.ofNat n) = true →
        configStringByte (UInt8.ofNat n) = true ∧ configSpace (UInt8.ofNat n) = false := by decide +kernel
    have known := all byte.toNat byte.toNat_lt
    rw [UInt8.ofNat_toNat] at known
    exact known digit
  refine ⟨decimal_ne_nil n, fun byte member => digits byte (isDigit_of_mem_decimal member), plain, ?_, short⟩
  exact Nat.le_trans (decimal_length_le bound) (by decide)

private theorem crowd_writable {count : Nat} (few : count < 2 ^ 63) : ∀ one ∈ crowd count, Writable one := by
  intro one member
  obtain ⟨i, listed⟩ := List.mem_iff_getElem?.mp member
  rcases crowd_getElem? listed with ⟨inside, rfl⟩ | ⟨_, rfl⟩
  · exact decimal_writable i (by omega) (List.all_eq_true.mp (by decide)) (by decide)
  · exact decimal_writable _ (by omega) (List.all_eq_true.mp (by decide)) (by decide)

/-- Only the last name was there before, at the index that is taken for -1. -/
private theorem crowd_hidden {count : Nat} (hides : Int32.ofNat (count - 1) = -1) (positive : 0 < count) :
    ∀ j k one other, k < j → (crowd count)[j]? = some one → (crowd count)[k]? = some other →
      other.1 = one.1 → Int32.ofNat k = -1 := by
  intro j k one other earlier here stood same
  rcases crowd_getElem? stood with ⟨_, rfl⟩ | ⟨rfl, rfl⟩
  · rcases crowd_getElem? here with ⟨_, rfl⟩ | ⟨rfl, rfl⟩
    · have equal := decimal_injective same
      omega
    · rw [decimal_injective same]
      exact hides
  · rcases crowd_getElem? here with ⟨inside, _⟩ | ⟨rfl, _⟩ <;> omega

/-- The password of the repeated name is refused where the name went unnoticed. -/
private theorem crowd_refused {count : Nat} (hides : Int32.ofNat (count - 1) = -1) (positive : 0 < count) (few : count < 2 ^ 63)
    {name secret : Vstr} (valid : name.Valid) (called : name.bytes = decimal (count - 1)) (knows : secret.bytes = cstr "b")
    (c : Client) : ∃ fuel config rounds users last,
      parseConfig (.granted fun unread _ => unread) fuel (userFile (crowd count)) = .ok (.ok config) ∧ 0 < config.users.len ∧
      addUsers .sample (fun _ => .granted 1) rounds (vecNew 1) config.users = .ok (0, users, last) ∧
      Credentials .sample config.users.elems (.string name) (.string secret) ∧
      (executeAuthCommand .sample (.granted 1) (serverOf users) c (.string name) (.string secret)).1 ≠ 0 := by
  have length : (crowd count).length = count + 1 := by simp [crowd]
  obtain ⟨fuel, config, rounds, users, last, accepted, some_, added, confValid, named, each⟩ :=
    userFile_accepted .sample (Supply.granted_grants fun unread _ => unread) (fun _ => Mem.granted_grants 1)
      (crowd_writable few) (by simp [crowd]) (by rw [length]; simp only [sizeMod]; omega) (crowd_hidden hides positive)
  have total : config.users.elems.length = count + 1 := by rw [← each.length_eq, length]
  have at_ : ∀ i (inside : i < count + 1), ∃ user, config.users.elems[i]? = some user ∧
      ((i < count ∧ user.IsOf (decimal i, cstr "a")) ∨ (i = count ∧ user.IsOf (decimal (count - 1), cstr "b"))) := by
    intro i inside
    have listed := List.getElem?_eq_getElem (show i < config.users.elems.length by omega)
    obtain ⟨one, stood, isOf⟩ := forall₂_getElem? each i _ listed
    rcases crowd_getElem? stood with ⟨before, rfl⟩ | ⟨last, rfl⟩
    · exact ⟨_, listed, .inl ⟨before, isOf⟩⟩
    · exact ⟨_, listed, .inr ⟨last, isOf⟩⟩
  refine ⟨fuel, config, rounds, users, last, accepted, some_, added, ?_, ?_⟩
  · obtain ⟨user, listed, ⟨before, _⟩ | ⟨_, isOf⟩⟩ := at_ count (Nat.lt_succ_self _)
    · omega
    · exact ⟨_, _, rfl, rfl, user, List.mem_of_getElem? listed, by rw [isOf.name.2, called], by rw [isOf.password.2, knows]⟩
  · obtain ⟨keeps, _⟩ := addUsers_keeps (s := serverOf users) (fun _ => Mem.granted_grants 1) confValid some_
      (by rw [← confValid.length, total]; simp only [sizeMod]; omega) named added
    rcases keeps.find valid with ⟨found, _⟩ | ⟨i, first, found, listed, _, minimal⟩
    · simp only [executeAuthCommand, found]
      decide
    · -- the first user of that name is the one with the other password
      obtain ⟨user, here, ⟨_, isOf⟩ | ⟨none_, _⟩⟩ := at_ (count - 1) (by omega)
      · have early : i < count := by
          by_contra late
          exact minimal (count - 1) (by omega) user here (by rw [isOf.name.2, called])
        obtain ⟨other, same, ⟨_, isFirst⟩ | ⟨none_, _⟩⟩ := at_ i (by omega)
        · rw [listed] at same
          cases same
          rcases executeAuthCommand_found keeps (Mem.granted_grants 1) sample_digests secret c found with
            ⟨matches_, _⟩ | ⟨_, cmp, differs, done⟩
          · rw [knows, isFirst.password.2] at matches_
            exact absurd matches_ (show Env.sample.sha256 (cstr "b") ≠ Env.sample.sha256 (cstr "a") by decide)
          · rw [done]
            exact differs
        · omega
      · omega

/-- 2^32 users and the last of them once more: `add_users` takes the index of the
first for -1, and the second password is refused. -/
theorem authRight_counterexample : ∃ fuel config rounds users last,
    parseConfig (.granted fun unread _ => unread) fuel (userFile (crowd (2 ^ 32))) = .ok (.ok config) ∧ 0 < config.users.len ∧
      addUsers .sample (fun _ => .granted 1) rounds (vecNew 1) config.users = .ok (0, users, last) ∧
      Credentials .sample config.users.elems (.string (vstrFrom (.granted 1) (cstr "4294967295")))
        (.string (vstrFrom (.granted 1) (cstr "b"))) ∧
      (executeAuthCommand .sample (.granted 1) (serverOf users) fresh (.string (vstrFrom (.granted 1) (cstr "4294967295")))
        (.string (vstrFrom (.granted 1) (cstr "b")))).1 ≠ 0 := by
  have valid : (vstrFrom (.granted 1) (cstr "4294967295")).Valid := ⟨by decide, by decide⟩
  have called : (vstrFrom (.granted 1) (cstr "4294967295")).bytes = decimal (2 ^ 32 - 1) := by decide +kernel
  exact crowd_refused (by decide) (by decide) (by decide) valid called (by decide) fresh

end Files

end LexiDB
