import LexiDB.Lib.Lockstep
import LexiDB.TableRefinement

/-! The dictionary and the set under every sequence of calls: they answer as the
finite map and the finite set of the keys, whatever is hashed where. -/

namespace LexiDB

open Lib

section Keys

variable {ops : KeyOps K}

/-- A comparison callback, if there is one, is an equivalence that equates only
keys of the same bytes. -/
def KeyOps.Respects (ops : KeyOps K) : Prop :=
  ∀ cmp, ops.keyCmp = some cmp → Equivalence (fun a b => cmp a b = 0) ∧ ∀ a b, cmp a b = 0 → ops.raw a = ops.raw b

theorem KeyOps.compare_bytes (bytewise : ops.keyCmp = none) (a b : K) : ops.compare a b = 0 ↔ ops.raw a = ops.raw b := by
  simp only [compare, bytewise]
  split
  · rename_i other
    exact iff_of_false (by decide) fun same => other (congrArg List.length same)
  · rename_i same
    have size := not_not.mp same
    rw [memcmp_eq_zero (Nat.le_of_eq size.symm), ← size, List.take_length]

theorem KeyOps.respects_bytes (bytewise : ops.keyCmp = none) : ops.Respects := by
  intro cmp callback
  rw [bytewise] at callback
  cases callback

theorem KeyOps.Respects.raw_eq (respects : ops.Respects) {a b : K} (same : ops.compare a b = 0) : ops.raw a = ops.raw b := by
  cases callback : ops.keyCmp with
  | none => exact (compare_bytes callback a b).mp same
  | some cmp =>
    simp only [compare, callback] at same
    exact (respects cmp callback).2 a b same

theorem KeyOps.Respects.equivalence (respects : ops.Respects) : Equivalence fun a b => ops.compare a b = 0 := by
  cases callback : ops.keyCmp with
  | none =>
    simp only [compare_bytes callback]
    exact ⟨fun _ => rfl, Eq.symm, Eq.trans⟩
  | some cmp =>
    simp only [compare, callback]
    exact (respects cmp callback).1

/-- Keys up to the comparison. -/
def KeyOps.Respects.Key (respects : ops.Respects) : Type := Quotient ⟨_, respects.equivalence⟩

def KeyOps.Respects.key (respects : ops.Respects) (key : K) : respects.Key := Quotient.mk _ key

theorem KeyOps.Respects.key_eq (respects : ops.Respects) (a b : K) : respects.key a = respects.key b ↔ ops.compare a b = 0 :=
  Quotient.eq

noncomputable instance (respects : ops.Respects) : DecidableEq respects.Key := Classical.decEq _

end Keys

section Dictionary

/-- A call of the dictionary. -/
inductive HtCall (K V : Type) where
  | insert (key : K) (data : V)
  | tryInsert (key : K) (data : V)
  | get (key : K)
  | delete (key : K)

/-- What a call returns: a result code, or what the pointer points to. -/
inductive HtAnswer (V : Type) where
  | result (res : HtResult)
  | value (data : Option V)

/-- A call, with the address `calloc` gives should the table grow. -/
def Ht.step (ops : KeyOps K) (ht : Ht K V) (call : Option Nat × HtCall K V) : HtAnswer V × Ht K V :=
  match call.2 with
  | .insert key data => (.result (htInsert ops call.1 ht key data).1, (htInsert ops call.1 ht key data).2)
  | .tryInsert key data => (.result (htTryInsert ops call.1 ht key data).1, (htTryInsert ops call.1 ht key data).2)
  | .get key => (.value (htGet ops ht key), ht)
  | .delete key => (.result (htDelete ops ht key).1, (htDelete ops ht key).2)

/-- The same call on a finite map from what the keys read as. -/
def mapStep {κ : Type} [DecidableEq κ] (proj : K → κ) (map : κ → Option V) (call : Option Nat × HtCall K V) :
    HtAnswer V × (κ → Option V) :=
  match call.2 with
  | .insert key data => (.result .ok, Function.update map (proj key) (some data))
  | .tryInsert key data =>
    if (map (proj key)).isSome then (.result .invKey, map)
    else (.result .ok, Function.update map (proj key) (some data))
  | .get key => (.value (map (proj key)), map)
  | .delete key =>
    if (map (proj key)).isSome then (.result .ok, Function.update map (proj key) none) else (.result .invKey, map)

/-- What every call keeps, whatever the comparison answers: each entry in its
bucket, the counter, and no more entries than buckets. -/
structure Ht.Kept (ops : KeyOps K) (ht : Ht K V) : Prop where
  placed : ht.Placed ops
  room : ht.numEntries ≤ ht.capacity

variable {ops : KeyOps K} {ht : Ht K V}

theorem htNew_kept (ops : KeyOps K) (seed : List UInt8) (table : Nat) : (htNew seed table : Ht K V).Kept ops :=
  ⟨htNew_placed ops seed table, Nat.zero_le _⟩

theorem Ht.Kept.step (kept : ht.Kept ops) (call : Option Nat × HtCall K V) : (ht.step ops call).2.Kept ops := by
  obtain ⟨calloc, call⟩ := call
  cases call with
  | insert key data => exact ⟨htInsert_placed kept.placed calloc key data, htInsert_room kept.placed kept.room calloc key data⟩
  | tryInsert key data =>
    exact ⟨htTryInsert_placed kept.placed calloc key data, htTryInsert_room kept.placed kept.room calloc key data⟩
  | get key => exact kept
  | delete key => exact ⟨htDelete_placed kept.placed key, htDelete_room kept.room key⟩

/-- A kept table whose entries are this finite map. -/
structure Ht.Is (respects : ops.Respects) (ht : Ht K V) (map : respects.Key → Option V) : Prop extends ht.Kept ops where
  maps : ht.Maps respects.key map

theorem Ht.tells_of_respects (respects : ops.Respects) (ht : Ht K V) (key : K) : ht.Tells ops respects.key key where
  agrees entry _ := by rw [respects.key_eq entry.key key]; exact ⟨respects.equivalence.symm, respects.equivalence.symm⟩
  hashed entry _ same := respects.raw_eq ((respects.key_eq entry.key key).mp same)

/-- One call: the answer of the map, and the map it leaves. -/
theorem Ht.Is.step {respects : ops.Respects} {map : respects.Key → Option V} (is : ht.Is respects map)
    (call : Option Nat × HtCall K V) (granted : call.1.isSome) : Alike (Ht.Is respects) (Ht.step ops) (mapStep respects.key) ht map call := by
  have kept := is.toKept.step call
  obtain ⟨calloc, call⟩ := call
  have tells := ht.tells_of_respects respects
  cases call with
  | insert key data =>
    obtain ⟨after, inserted, maps⟩ := htInsert_maps is.placed is.maps (tells key) granted data
    refine ⟨by simp [Ht.step, mapStep, inserted], kept, ?_⟩
    simpa [Ht.step, mapStep, inserted] using maps
  | tryInsert key data =>
    obtain ⟨after, inserted, maps⟩ := htTryInsert_maps is.placed is.maps (tells key) granted data
    cases bound : (map (respects.key key)).isSome with
    | true =>
      simp only [bound, ↓reduceIte] at inserted maps
      refine ⟨by simp [Ht.step, mapStep, inserted, bound], kept, ?_⟩
      simpa [Ht.step, mapStep, inserted, bound] using maps
    | false =>
      simp only [bound, Bool.false_eq_true, ↓reduceIte] at inserted maps
      refine ⟨by simp [Ht.step, mapStep, inserted, bound], kept, ?_⟩
      simpa [Ht.step, mapStep, inserted, bound] using maps
  | get key =>
    have found := htGet_maps is.placed is.maps (tells key)
    exact ⟨by simp [Ht.step, mapStep, found], is⟩
  | delete key =>
    obtain ⟨removed, maps⟩ := htDelete_maps is.placed is.maps (tells key)
    cases bound : (map (respects.key key)).isSome with
    | true =>
      simp only [bound, ↓reduceIte] at removed
      refine ⟨by simp [Ht.step, mapStep, removed, bound], kept, ?_⟩
      simpa [Ht.step, mapStep, bound] using maps
    | false =>
      have missing : map (respects.key key) = none := by simpa using bound
      rw [← missing, Function.update_eq_self] at maps
      simp only [bound, Bool.false_eq_true, ↓reduceIte] at removed
      refine ⟨by simp [Ht.step, mapStep, removed, bound], kept, ?_⟩
      simpa [Ht.step, mapStep, bound] using maps

/-- Equal keys are stored once. -/
theorem Ht.Is.distinct {respects : ops.Respects} {map : respects.Key → Option V} (is : ht.Is respects map) :
    ht.items.Pairwise fun entry other => ops.compare entry.key other.key ≠ 0 := by
  have nodup := List.pairwise_map.mp is.maps.nodup
  refine nodup.imp ?_
  intro entry other different same
  exact different ((respects.key_eq entry.key other.key).mpr same)

/-- Over every sequence of calls the dictionary answers as the finite map, counts
its keys, has no more entries than buckets and each where its hash says, and holds
no key twice. -/
theorem ht_refines_map (respects : ops.Respects) (seed : List UInt8) (table : Nat) (calls : List (Option Nat × HtCall K V))
    (granted : ∀ call ∈ calls, call.1.isSome) :
    let run := answers (Ht.step ops) (htNew seed table) calls
    let spec := answers (mapStep respects.key) (fun _ => none) calls
    run.1 = spec.1 ∧ run.2.numEntries = {k | (spec.2 k).isSome}.ncard ∧ run.2.numEntries ≤ run.2.capacity ∧
      run.2.entries.length = run.2.capacity ∧
      (∀ slot entry, entry ∈ chainAt run.2.entries slot → htHash ops run.2 entry.key = slot) ∧
      run.2.items.Pairwise fun entry other => ops.compare entry.key other.key ≠ 0 := by
  have start : (htNew seed table : Ht K V).Is respects fun _ => none :=
    ⟨htNew_kept ops seed table, by rw [Ht.Maps, htNew_items]; exact Represents.empty⟩
  obtain ⟨same, is⟩ := answers_alike (fun _ _ call is allowed => is.step call allowed) granted start
  refine ⟨same, ?_, is.room, is.placed.size, ?_, is.distinct⟩
  · rw [is.placed.count, ← is.maps.card]
  · intro slot entry member
    rw [← is.placed.placed slot entry member, htHash, is.placed.size]

/-- Byte strings that all hash to one bucket. -/
private def colliding : KeyOps (List UInt8) := ⟨fun _ _ => 7, id, none⟩

private theorem colliding_respects : colliding.Respects := KeyOps.respects_bytes rfl

private def sixCalls : List (Option Nat × HtCall (List UInt8) Nat) :=
  [(some 1, .insert (cstr "a") 1), (some 1, .tryInsert (cstr "a") 2), (some 1, .insert (cstr "b") 3), (some 1, .get (cstr "a")),
    (some 1, .delete (cstr "a")), (some 1, .get (cstr "a"))]

theorem ht_refines_map_colliding :
    (answers (Ht.step colliding) (htNew [] 0) sixCalls).1 = (answers (mapStep colliding_respects.key) (fun _ => none) sixCalls).1 ∧
      (answers (Ht.step colliding) (htNew [] 0) sixCalls).1 =
        [.result .ok, .result .invKey, .result .ok, .value (some 1), .result .ok, .value none] :=
  ⟨(ht_refines_map colliding_respects [] 0 sixCalls (by simp [sixCalls])).1, by rfl⟩

/-- In every table that is reached, the iterator visits the entries one by one,
each bucket's chain in turn, and stays at NULL behind the last. -/
theorem htIter_visits (ops : KeyOps K) (seed : List UInt8) (table : Nat) (calls : List (Option Nat × HtCall K V)) :
    let ht := (answers (Ht.step ops) (htNew seed table) calls).2
    ht.items.length = ht.numEntries ∧
      ∀ k, ((htIterNext ht)^[k] (htIterNew ht)).cur.head? = ht.items[k]? ∧
        (((htIterNext ht)^[k] (htIterNew ht)).cur = [] ↔ ht.numEntries ≤ k) := by
  have kept := answers_keep (Ht.Kept ops) (Ht.step ops) (fun _ call kept => kept.step call) calls
    (htNew_kept ops seed table)
  have count := kept.placed.count
  refine ⟨count.symm, fun k => ?_⟩
  obtain ⟨_, cur, _⟩ := htIterNew_steps kept.placed.toCounted k
  refine ⟨cur, ?_⟩
  rw [← List.head?_eq_none_iff, cur, List.getElem?_eq_none_iff, count]

end Dictionary

section Set

/-- A call of the set. -/
inductive SetCall (α : Type) where
  | insert (data : α)
  | has (data : α)
  | delete (data : α)

/-- What a call returns. -/
inductive SetAnswer where
  | result (res : SetResult)
  | has (present : Bool)

/-- A call, with what the allocator grants it. -/
def LexiSet.step (ops : KeyOps α) (s : LexiSet α) (call : SetMem × SetCall α) : SetAnswer × LexiSet α :=
  match call.2 with
  | .insert data => (.result (setInsert ops call.1 s data).1, (setInsert ops call.1 s data).2)
  | .has data => (.has (setHas ops s data), s)
  | .delete data => (.result (setDelete ops s data).1, (setDelete ops s data).2)

/-- The same call on a finite set of what the elements read as. -/
def finsetStep {κ : Type} [DecidableEq κ] (proj : α → κ) (members : Finset κ) (call : SetMem × SetCall α) : SetAnswer × Finset κ :=
  match call.2 with
  | .insert data =>
    if proj data ∈ members then (.result .keyExists, members) else (.result .ok, insert (proj data) members)
  | .has data => (.has (decide (proj data ∈ members)), members)
  | .delete data => if proj data ∈ members then (.result .ok, members.erase (proj data)) else (.result .invKey, members)

/-- A finite set as the map that is defined on it. -/
def membership {κ : Type} [DecidableEq κ] (members : Finset κ) (k : κ) : Option Unit := if k ∈ members then some () else none

section Membership

variable {κ : Type} [DecidableEq κ] {members : Finset κ}

theorem membership_isSome (k : κ) : (membership members k).isSome = decide (k ∈ members) := by
  by_cases member : k ∈ members <;> simp [membership, member]

theorem membership_insert (k : κ) : membership (insert k members) = Function.update (membership members) k (some ()) := by
  funext other
  by_cases same : other = k
  · simp [membership, same]
  · simp [membership, same]

theorem membership_erase (k : κ) : membership (members.erase k) = Function.update (membership members) k none := by
  funext other
  by_cases same : other = k
  · simp [membership, same]
  · simp [membership, same]

end Membership

variable {ops : KeyOps α} {s : LexiSet α}

/-- A placed table whose elements are this finite set. -/
structure LexiSet.Is (respects : ops.Respects) (s : LexiSet α) (members : Finset respects.Key) : Prop extends s.Placed ops where
  maps : s.Maps respects.key (membership members)

theorem LexiSet.tells_of_respects (respects : ops.Respects) (s : LexiSet α) (data : α) : s.Tells ops respects.key data where
  agrees stored _ := by rw [respects.key_eq stored data]; exact ⟨respects.equivalence.symm, respects.equivalence.symm⟩
  hashed stored _ same := respects.raw_eq ((respects.key_eq stored data).mp same)

/-- One call: the answer of the set, and the set it leaves. -/
theorem LexiSet.Is.step {respects : ops.Respects} {members : Finset respects.Key} (is : s.Is respects members)
    (call : SetMem × SetCall α) (granted : call.1.resize = true ∧ call.1.entry = true) :
    Alike (LexiSet.Is respects) (LexiSet.step ops) (finsetStep respects.key) s members call := by
  obtain ⟨mem, call⟩ := call
  have tells := s.tells_of_respects respects
  cases call with
  | insert data =>
    obtain ⟨after, inserted, placed, maps⟩ := setInsert_maps is.toPlaced is.maps (tells data) granted.1 granted.2
    rw [membership_isSome] at inserted
    rw [← membership_insert] at maps
    by_cases member : respects.key data ∈ members
    · rw [Finset.insert_eq_of_mem member] at maps
      have is : LexiSet.Is respects after members := ⟨placed, maps⟩
      simpa [Alike, LexiSet.step, finsetStep, inserted, member] using is
    · have is : LexiSet.Is respects after (insert (respects.key data) members) := ⟨placed, maps⟩
      simpa [Alike, LexiSet.step, finsetStep, inserted, member] using is
  | has data =>
    have found := setHas_maps is.toPlaced is.maps (tells data)
    rw [membership_isSome] at found
    exact ⟨by simp [LexiSet.step, finsetStep, found], is⟩
  | delete data =>
    obtain ⟨removed, placed, maps⟩ := setDelete_maps is.toPlaced is.maps (tells data)
    rw [membership_isSome] at removed
    rw [← membership_erase] at maps
    by_cases member : respects.key data ∈ members
    · have is : LexiSet.Is respects (setDelete ops s data).2 (members.erase (respects.key data)) := ⟨placed, maps⟩
      simpa [Alike, LexiSet.step, finsetStep, removed, member] using is
    · rw [Finset.erase_eq_of_notMem member] at maps
      have is : LexiSet.Is respects (setDelete ops s data).2 members := ⟨placed, maps⟩
      simpa [Alike, LexiSet.step, finsetStep, removed, member] using is

/-- Over every sequence of calls the set answers as the finite set, and its length
is the size of that set. -/
theorem set_refines_finset (respects : ops.Respects) (seed : List UInt8) (calls : List (SetMem × SetCall α))
    (granted : ∀ call ∈ calls, call.1.resize = true ∧ call.1.entry = true) :
    let run := answers (LexiSet.step ops) (setNew seed) calls
    let spec := answers (finsetStep respects.key) ∅ calls
    run.1 = spec.1 ∧ setLen run.2 = spec.2.card := by
  have start : (setNew seed : LexiSet α).Is respects ∅ := by
    refine ⟨setNew_placed ops seed, ?_⟩
    rw [LexiSet.Maps, setNew_items]
    exact Represents.empty
  obtain ⟨same, is⟩ := answers_alike (fun _ _ call is allowed => is.step call allowed) granted start
  refine ⟨same, ?_⟩
  rw [setLen, is.count, ← is.maps.card, ← Set.ncard_coe_finset]
  congr 1
  ext k
  simp [membership_isSome]

private def setCalls : List (SetMem × SetCall (List UInt8)) :=
  [(⟨true, true⟩, .insert (cstr "a")), (⟨true, true⟩, .insert (cstr "b")), (⟨true, true⟩, .insert (cstr "a")),
    (⟨true, true⟩, .delete (cstr "a")), (⟨true, true⟩, .has (cstr "a")), (⟨true, true⟩, .has (cstr "b"))]

theorem set_refines_finset_colliding :
    (answers (LexiSet.step colliding) (setNew []) setCalls).1 = (answers (finsetStep colliding_respects.key) ∅ setCalls).1 ∧
      (answers (LexiSet.step colliding) (setNew []) setCalls).1 =
        [.result .ok, .result .ok, .result .keyExists, .result .ok, .has false, .has true] :=
  ⟨(set_refines_finset colliding_respects [] setCalls (by simp [setCalls])).1, by rfl⟩

end Set

end LexiDB
